import PatternAutomata.Proofs.CharSet.Words

/-!
# The ranges of a set

The ASCII members of a set are listed as ranges that are as long as can be. Spread out again they
are the members in order, so that the set is got back by flipping the slots of each range: no slot
is flipped twice.

A scan finds the same ranges in one pass over the slots. It keeps one run open, which the next
member extends and the next gap closes, be it in the same word or not; the last run is closed
behind the last slot.

## Main definitions

* `CharSet.spread` — the numbers in ranges, one after the other.
* `CharSet.Scan`, `CharSet.Words.ranges` — the scan over the slots of two words.

## Main statements

* `CharSet.spread_runs`, `CharSet.pairwise_runs` — nothing is lost, and no two ranges touch.
* `CharSet.ranges_words` — the scan finds the ranges.
* `CharSet.ranges_normal` — the ranges are a normal form of the table.
-/
namespace PatternAutomata.CharSet

/-- The numbers in the ranges, one after the other. -/
def spread (rs : List (Nat × Nat)) : List Nat :=
  rs.flatMap fun r => List.range' r.1 (r.2 + 1 - r.1)

/-- Puts a range in front of others, and makes one of it and the first of them if they touch. -/
def glue (r : Nat × Nat) : List (Nat × Nat) → List (Nat × Nat)
  | [] => [r]
  | s :: rest => if s.1 = r.2 + 1 then (r.1, s.2) :: rest else r :: s :: rest

/-- The characters at both ends of a range of codes. -/
def ends (r : Nat × Nat) : Char × Char :=
  (Char.ofNat r.1, Char.ofNat r.2)

section Runs

variable {l : List Nat} {rs : List (Nat × Nat)} {r : Nat × Nat} {n : Nat}

theorem runs_cons (n : Nat) (l : List Nat) : runs (n :: l) = glue (n, n) (runs l) := by
  rw [runs]
  cases runs l <;> rfl

theorem forall_mem_glue {P : Nat × Nat → Prop} (hr : P r) (hrs : ∀ s ∈ rs, P s)
    (hglue : ∀ s ∈ rs, s.1 = r.2 + 1 → P (r.1, s.2)) : ∀ s ∈ glue r rs, P s := by
  cases rs with
  | nil => exact fun s hs => List.mem_singleton.1 hs ▸ hr
  | cons s rest =>
    rw [glue]
    split
    case isTrue h =>
      exact List.forall_mem_cons.2 ⟨hglue s List.mem_cons_self h, (List.forall_mem_cons.1 hrs).2⟩
    case isFalse => exact List.forall_mem_cons.2 ⟨hr, hrs⟩

theorem le_of_mem_runs (l : List Nat) : ∀ r ∈ runs l, r.1 ≤ r.2 := by
  induction l with
  | nil => exact nofun
  | cons n l ih =>
    rw [runs_cons]
    refine forall_mem_glue (Nat.le_refl n) ih fun s hs h => ?_
    have hle := ih s hs
    simp only at h ⊢
    omega

theorem spread_glue (hr : r.1 ≤ r.2) (hrs : ∀ s ∈ rs, s.1 ≤ s.2) :
    spread (glue r rs) = List.range' r.1 (r.2 + 1 - r.1) ++ spread rs := by
  cases rs with
  | nil => rfl
  | cons s rest =>
    have hs : s.1 ≤ s.2 := hrs s List.mem_cons_self
    rw [glue]
    split
    case isTrue h =>
      have hlen : s.2 + 1 - r.1 = (r.2 + 1 - r.1) + (s.2 + 1 - s.1) := by omega
      have hstart : s.1 = r.1 + (r.2 + 1 - r.1) := by omega
      simp only [spread, List.flatMap_cons, hlen, ← List.range'_append_1, ← hstart,
        List.append_assoc]
    case isFalse => rfl

/-- The ranges of a list, spread out, are the list. -/
theorem spread_runs (l : List Nat) : spread (runs l) = l := by
  induction l with
  | nil => rfl
  | cons n l ih =>
    rw [runs_cons, spread_glue (Nat.le_refl n) (le_of_mem_runs l), ih]
    simp

theorem mem_iff_exists_runs : n ∈ l ↔ ∃ r ∈ runs l, r.1 ≤ n ∧ n ≤ r.2 := by
  conv => lhs; rw [← spread_runs l]
  simp only [spread, List.mem_flatMap, List.mem_range'_1]
  refine exists_congr fun r => and_congr_right fun hr => ?_
  omega

theorem ends_mem_of_mem_runs (hr : r ∈ runs l) : r.1 ∈ l ∧ r.2 ∈ l := by
  have hle := le_of_mem_runs l r hr
  exact ⟨mem_iff_exists_runs.2 ⟨r, hr, Nat.le_refl _, hle⟩,
    mem_iff_exists_runs.2 ⟨r, hr, hle, Nat.le_refl _⟩⟩

/-- Between two ranges of an ascending list there is a number that is not in it. -/
theorem pairwise_runs (h : l.Pairwise (· < ·)) :
    (runs l).Pairwise fun r r' => r.2 + 1 < r'.1 := by
  induction l with
  | nil => exact .nil
  | cons n l ih =>
    obtain ⟨hn, hl⟩ := List.pairwise_cons.1 h
    have hrest := ih hl
    have hlt : ∀ r ∈ runs l, n < r.1 := fun r hr => hn _ (ends_mem_of_mem_runs hr).1
    have hle := le_of_mem_runs l
    rw [runs_cons]
    cases hruns : runs l with
    | nil => exact List.pairwise_singleton _ _
    | cons s rest =>
      rw [hruns] at hrest hlt hle
      obtain ⟨hs, hrest'⟩ := List.pairwise_cons.1 hrest
      rw [glue]
      split
      case isTrue => exact List.pairwise_cons.2 ⟨hs, hrest'⟩
      case isFalse hne =>
        refine List.pairwise_cons.2 ⟨fun r hr => ?_, hrest⟩
        have hns := hlt s List.mem_cons_self
        have hss := hle s List.mem_cons_self
        rcases List.mem_cons.1 hr with rfl | hr
        · simp only at hne ⊢
          omega
        · have := hs r hr
          simp only at hne ⊢
          omega

end Runs

section Scan

/-- What a scan has found: the ranges that have ended, and the one that has not. -/
structure Scan where
  closed : List (Char × Char) := []
  opened : Option (Nat × Nat) := none

namespace Scan

/-- Ends the open range. -/
def close : Scan → Scan
  | ⟨closed, some r⟩ => ⟨closed ++ [ends r], none⟩
  | ⟨closed, none⟩ => ⟨closed, none⟩

/-- One turn of the scan, at the slot with number `n`. -/
def turn (member : Nat → Bool) (s : Scan) (n : Nat) : Scan :=
  if member n then
    match s.opened with
    | some (lo, _) => { s with opened := some (lo, n) }
    | none => { s with opened := some (n, n) }
  else s.close

end Scan

/-- The ranges of members among the slots, found from the first slot to the last. -/
def Words.ranges (w : Words) : List (Char × Char) :=
  ((List.range 128).foldl (Scan.turn fun n => w.inTable (Char.ofNat n)) {}).close.closed

variable {r : Nat × Nat} {rs : List (Nat × Nat)}

/-- A range grows by the number behind it. -/
theorem glue_glue (r : Nat × Nat) (rs : List (Nat × Nat)) :
    glue r (glue (r.2 + 1, r.2 + 1) rs) = glue (r.1, r.2 + 1) rs := by
  cases rs with
  | nil => simp [glue]
  | cons s rest =>
    by_cases h : s.1 = r.2 + 1 + 1
    · simp [glue, h]
    · simp [glue, h]

theorem glue_of_lt (h : ∀ s ∈ rs, r.2 + 1 < s.1) : glue r rs = r :: rs := by
  cases rs with
  | nil => rfl
  | cons s rest =>
    have hs := h s List.mem_cons_self
    rw [glue, if_neg (Nat.ne_of_gt hs)]

/-- A scan that goes on finds what is open with the ranges behind it glued on. A number that is no
member keeps what is open apart from the ranges still to come. -/
theorem closed_foldl_turn (member : Nat → Bool) (k n : Nat) (s : Scan)
    (hs : ∀ r, s.opened = some r → r.2 + 1 = n) :
    ((List.range' n k).foldl (Scan.turn member) s).close.closed =
      s.closed ++ ((s.opened.elim id glue) (runs ((List.range' n k).filter member))).map ends := by
  induction k generalizing n s with
  | zero =>
    obtain ⟨closed, _ | r⟩ := s
    · simp [Scan.close, runs]
    · simp [Scan.close, runs, glue]
  | succ k ih =>
    obtain ⟨closed, opened⟩ := s
    rw [List.range'_succ, List.foldl_cons, Scan.turn]
    cases hn : member n with
    | true =>
      rw [if_pos rfl, List.filter_cons_of_pos hn, runs_cons]
      cases opened with
      | none =>
        rw [ih]
        · rfl
        · intro r hr
          cases hr
          rfl
      | some r =>
        obtain rfl : r.2 + 1 = n := hs r rfl
        rw [ih]
        · simp only [Option.elim, glue_glue]
        · intro r hr
          cases hr
          rfl
    | false =>
      have hbehind : ∀ s ∈ runs ((List.range' (n + 1) k).filter member), n < s.1 := fun s hs => by
        have hmem := List.mem_filter.1 (ends_mem_of_mem_runs hs).1
        exact (List.mem_range'_1.1 hmem.1).1
      rw [if_neg Bool.false_ne_true, List.filter_cons_of_neg (by simp [hn])]
      cases opened with
      | none =>
        rw [ih]
        · rfl
        · exact nofun
      | some r =>
        obtain rfl : r.2 + 1 = n := hs r rfl
        rw [ih]
        · simp [Scan.close, glue_of_lt hbehind]
        · exact nofun

/-- The scan finds the ranges of the table. -/
theorem ranges_words (s : CharSet) : s.words.ranges = s.ranges := by
  rw [Words.ranges, ranges, List.range_eq_range',
    closed_foldl_turn _ _ _ _ fun _ h => by cases h]
  have hmember : ∀ n ∈ List.range' 0 128,
      s.words.inTable (Char.ofNat n) = s.ascii.getLsbD n := fun n hn => by
    have hlt : n < 128 := by simpa using List.mem_range'_1.1 hn
    rw [inTable_words, inTable, isAscii_ofNat hlt, if_pos rfl, toNat_ofNat hlt]
  rw [List.filter_congr hmember]
  rfl

end Scan

section Normal

variable {s : CharSet}

/-- The codes of the ASCII members of the table, in order. -/
def codes (s : CharSet) : List Nat :=
  (List.range 128).filter s.ascii.getLsbD

theorem ranges_eq (s : CharSet) : s.ranges = (runs s.codes).map ends := rfl

theorem lt_of_mem_codes {n : Nat} (h : n ∈ s.codes) : n < 128 :=
  List.mem_range.1 (List.mem_filter.1 h).1

theorem mem_codes_iff {c : Char} :
    c.toNat ∈ s.codes ↔ isAscii c = true ∧ s.inTable c = true := by
  rw [codes, List.mem_filter, List.mem_range, ← isAscii_iff]
  refine and_congr_right fun hc => ?_
  rw [inTable, hc, if_pos rfl]

/-- The ends of ranges, read as characters, are their codes. -/
theorem toNat_ends {r : Nat × Nat} (hr : r ∈ runs s.codes) :
    (ends r).1.toNat = r.1 ∧ (ends r).2.toNat = r.2 := by
  obtain ⟨hlo, hhi⟩ := ends_mem_of_mem_runs hr
  exact ⟨toNat_ofNat (lt_of_mem_codes hlo), toNat_ofNat (lt_of_mem_codes hhi)⟩

theorem foldlM_toggleRange? (s : CharSet) {rs : List (Nat × Nat)}
    (h : ∀ r ∈ rs, r.1 < 128 ∧ r.2 < 128) :
    (rs.map ends).foldlM (fun t r => t.toggleRange? r.1 r.2) s =
      some ((spread rs).foldl flip s) := by
  induction rs generalizing s with
  | nil => rfl
  | cons r rs ih =>
    obtain ⟨⟨hlo, hhi⟩, hrs⟩ := List.forall_mem_cons.1 h
    have hrange : s.toggleRange? (ends r).1 (ends r).2 =
        some ((List.range' r.1 (r.2 + 1 - r.1)).foldl flip s) := by
      simp [toggleRange?, ends, isAscii_ofNat, toNat_ofNat, hlo, hhi]
    rw [List.map_cons, List.foldlM_cons, hrange]
    exact (ih _ hrs).trans (by rw [spread, spread, List.flatMap_cons, List.foldl_append])

/-- Flipped once each in an empty table, the ASCII members give it all but one slot. -/
theorem foldl_flip_codes (s : CharSet) :
    s.codes.foldl flip { negated := s.negated } = { s with other := false } := by
  have hnodup : s.codes.Nodup := List.nodup_range.filter _
  refine eq_of_inTable (negated_foldl_flip { negated := s.negated } _) fun c => ?_
  rw [inTable_foldl_flip _ hnodup, Bool.eq_iff_iff]
  cases hc : isAscii c <;> simp [mem_codes_iff, inTable, hc]

theorem ordered_ranges (s : CharSet) : ∀ r ∈ s.ranges, r.1 ≤ r.2 ∧ isAscii r.2 = true := by
  rw [ranges_eq, List.forall_mem_map]
  intro r hr
  obtain ⟨hlo, hhi⟩ := toNat_ends hr
  constructor
  · rw [le_iff_toNat, hlo, hhi]
    exact le_of_mem_runs _ r hr
  · exact isAscii_ofNat (lt_of_mem_codes (ends_mem_of_mem_runs hr).2)

theorem pairwise_ranges (s : CharSet) :
    s.ranges.Pairwise fun r r' => r.2.toNat + 1 < r'.1.toNat := by
  have hcodes : s.codes.Pairwise (· < ·) := List.pairwise_lt_range.filter _
  rw [ranges_eq, List.pairwise_map]
  refine (pairwise_runs hcodes).imp_of_mem fun hr hr' h => ?_
  rwa [(toNat_ends hr).2, (toNat_ends hr').1]

theorem exists_mem_ranges_iff (s : CharSet) (c : Char) :
    (∃ r ∈ s.ranges, r.1 ≤ c ∧ c ≤ r.2) ↔ isAscii c = true ∧ s.inTable c = true := by
  rw [← mem_codes_iff, mem_iff_exists_runs, ranges_eq]
  constructor
  · rintro ⟨_, hmem, hlo, hhi⟩
    obtain ⟨r, hr, rfl⟩ := List.mem_map.1 hmem
    rw [le_iff_toNat, (toNat_ends hr).1] at hlo
    rw [le_iff_toNat, (toNat_ends hr).2] at hhi
    exact ⟨r, hr, hlo, hhi⟩
  · rintro ⟨r, hr, hlo, hhi⟩
    refine ⟨ends r, List.mem_map_of_mem hr, ?_, ?_⟩
    · rwa [le_iff_toNat, (toNat_ends hr).1]
    · rwa [le_iff_toNat, (toNat_ends hr).2]

/-- The ranges give a new table all but the slot of the characters outside ASCII. -/
theorem foldlM_ranges (s : CharSet) :
    s.ranges.foldlM (fun t r => t.toggleRange? r.1 r.2) { negated := s.negated } =
      some { s with other := false } := by
  have hlt : ∀ r ∈ runs s.codes, r.1 < 128 ∧ r.2 < 128 := fun r hr =>
    (ends_mem_of_mem_runs hr).imp lt_of_mem_codes lt_of_mem_codes
  rw [ranges_eq, foldlM_toggleRange? _ hlt, spread_runs, foldl_flip_codes]

/-- The ranges of a set are a normal form of its table, whatever its two words are; a scan over the
slots of the words finds them. They ascend, each behind a gap, and cover just the ASCII characters
in the table. Toggled one after the other in a new set of the same negation they give the set back,
but for the slot of all other characters. -/
theorem ranges_normal (s : CharSet) :
    s.words.ranges = s.ranges ∧
      (∀ r ∈ s.ranges, r.1 ≤ r.2 ∧ isAscii r.2 = true) ∧
      (s.ranges.Pairwise fun r r' => r.2.toNat + 1 < r'.1.toNat) ∧
      (∀ c, (∃ r ∈ s.ranges, r.1 ≤ c ∧ c ≤ r.2) ↔ isAscii c = true ∧ s.inTable c = true) ∧
      ∃ t : CharSet, s.ranges.foldlM (fun t r => t.toggleRange? r.1 r.2) { negated := s.negated } =
        some t ∧ (if s.other then { t with other := !t.other } else t) = s := by
  refine ⟨ranges_words s, ordered_ranges s, pairwise_ranges s, exists_mem_ranges_iff s,
    { s with other := false }, foldlM_ranges s, ?_⟩
  obtain ⟨ascii, _ | _, negated⟩ := s <;> rfl

/-- A range that goes on from the one word to the other, and one that ends with the last slot. -/
example : Words.ranges ⟨0xc000_0000_0000_0000, 0x8000_0000_0000_0003, true, false⟩ =
    [('>', 'A'), ('\x7f', '\x7f')] := by
  decide +kernel

end Normal

end PatternAutomata.CharSet
