import PatternAutomata.Proofs.Pattern.Rendering
import PatternAutomata.Proofs.Search.Acceptance

/-!
# A search decides what a pattern matches

The walks through the region of a pattern are its matches: every walk is one, and every match is
the way of a walk. As a search accepts whenever there is an accepting run, it accepts whenever the
pattern matches.

## Main statement

* `Pattern.exec_iff_matches` — a search for a pattern accepts what the pattern matches.
-/
namespace PatternAutomata

namespace Pattern

variable {flags : Flags} {text : String} {p body : Pattern} {ps qs : List Pattern} {i j k n : Nat}

section Sequences

theorem matches_nil_iff : Matches flags text (.sequence []) i j ↔ j = i := by
  constructor
  · rintro ⟨⟩
    rfl
  · rintro rfl
    exact .nil

theorem matches_cons_iff : Matches flags text (.sequence (p :: ps)) i k ↔
    ∃ j, p.Matches flags text i j ∧ Matches flags text (.sequence ps) j k := by
  constructor
  · rintro (_ | _ | _ | _ | _ | ⟨h, h'⟩)
    exact ⟨_, h, h'⟩
  · rintro ⟨j, h, h'⟩
    exact .cons h h'

theorem matches_append_iff : Matches flags text (.sequence (ps ++ qs)) i k ↔
    ∃ j, Matches flags text (.sequence ps) i j ∧ Matches flags text (.sequence qs) j k := by
  induction ps generalizing i with
  | nil => simp [matches_nil_iff]
  | cons p ps ih =>
    simp only [List.cons_append, matches_cons_iff, ih]
    grind

theorem matches_repeated_iff {times : Repetition} {greedy : Bool} :
    Matches flags text (.repeated body times greedy) i j ↔
      ∃ n, times.Admits n ∧ Matches flags text (.sequence (List.replicate n body)) i j := by
  constructor
  · rintro (_ | _ | _ | _ | _ | _ | _ | _ | ⟨hn, h⟩)
    exact ⟨_, hn, h⟩
  · rintro ⟨n, hn, h⟩
    exact .repeated hn h

theorem matches_replicate_optional_iff {greedy : Bool} {m : Nat} :
    Matches flags text (.sequence (List.replicate m (.repeated body .optional greedy))) i j ↔
      ∃ n ≤ m, Matches flags text (.sequence (List.replicate n body)) i j := by
  induction m generalizing i with
  | zero => simp
  | succ m ih =>
    rw [List.replicate_succ, matches_cons_iff]
    constructor
    · rintro ⟨k, h, h'⟩
      obtain ⟨l, hl, h⟩ := matches_repeated_iff.1 h
      obtain ⟨n, hn, h'⟩ := ih.1 h'
      refine ⟨l + n, by simp only [Repetition.Admits] at hl; omega, ?_⟩
      rw [← List.replicate_append_replicate, matches_append_iff]
      exact ⟨k, h, h'⟩
    · rintro ⟨n, hn, h⟩
      cases n with
      | zero =>
        refine ⟨i, matches_repeated_iff.2 ⟨0, Nat.zero_le _, .nil⟩, ih.2 ⟨0, Nat.zero_le _, h⟩⟩
      | succ n =>
        rw [List.replicate_succ, matches_cons_iff] at h
        obtain ⟨k, h, h'⟩ := h
        refine ⟨k, matches_repeated_iff.2 ⟨1, le_rfl, ?_⟩, ih.2 ⟨n, by omega, h'⟩⟩
        exact .cons h .nil

/-- A counted repetition written out matches the same. -/
theorem matches_unrolled_iff {min : Nat} {max : Option Nat} {greedy : Bool}
    (hle : ∀ m, max = some m → min ≤ m) :
    Matches flags text (.sequence (body.unrolled min max greedy)) i j ↔
      Matches flags text (.repeated body (.counted min max) greedy) i j := by
  cases max with
  | none =>
    simp only [unrolled, matches_append_iff, matches_cons_iff, matches_nil_iff,
      matches_repeated_iff, Repetition.Admits]
    constructor
    · rintro ⟨k, h, l, ⟨n, -, h'⟩, rfl⟩
      refine ⟨min + n, Nat.le_add_right _ _, ?_⟩
      rw [← List.replicate_append_replicate, matches_append_iff]
      exact ⟨k, h, h'⟩
    · rintro ⟨n, hn, h⟩
      obtain ⟨m, rfl⟩ := Nat.exists_eq_add_of_le hn
      rw [← List.replicate_append_replicate, matches_append_iff] at h
      obtain ⟨k, h, h'⟩ := h
      exact ⟨k, h, j, ⟨m, trivial, h'⟩, rfl⟩
  | some max =>
    have hle := hle max rfl
    simp only [unrolled, matches_append_iff, matches_replicate_optional_iff, matches_repeated_iff,
      Repetition.Admits]
    constructor
    · rintro ⟨k, h, n, hn, h'⟩
      refine ⟨min + n, by omega, ?_⟩
      rw [← List.replicate_append_replicate, matches_append_iff]
      exact ⟨k, h, h'⟩
    · rintro ⟨n, hn, h⟩
      obtain ⟨m, rfl⟩ := Nat.exists_eq_add_of_le hn.1
      rw [← List.replicate_append_replicate, matches_append_iff] at h
      obtain ⟨k, h, h'⟩ := h
      exact ⟨k, h, m, by omega, h'⟩

end Sequences

section Walks

variable {r : Region} {b : Block} {W : Cursor → List Visit → Cursor → Prop} {s t : Cursor}
  {run : List Visit} {times : Repetition}

/-- The rounds of a block are as many as its extra edges allow. -/
theorem matches_of_laps (hW : ∀ s run t, W s run t → body.Matches flags text s.offset t.offset)
    (h : Region.Laps b W s run t) :
    ∃ n, Matches flags text (.sequence (List.replicate n body)) s.offset t.offset ∧
      (b.shape.skip = true ∨ 1 ≤ n) ∧ (b.shape.again = true ∨ n ≤ 1) := by
  have hlap {s t : Cursor} {lap : List Visit} (h : Region.Lap b W s lap t) :
      ∃ n ≤ 1, Matches flags text (.sequence (List.replicate n body)) s.offset t.offset ∧
        (b.shape.skip = true ∨ 1 ≤ n) := by
    cases h with
    | skip hskip => exact ⟨0, Nat.zero_le _, .nil, .inl hskip⟩
    | through h => exact ⟨1, le_rfl, .cons (hW _ _ _ h) .nil, .inr le_rfl⟩
  induction h with
  | leave h =>
    obtain ⟨n, hn, h, hskip⟩ := hlap h
    exact ⟨n, h, hskip, .inr hn⟩
  | again hagain h _ ih =>
    obtain ⟨n, -, h, hskip⟩ := hlap h
    obtain ⟨m, h', -, -⟩ := ih
    refine ⟨n + m, ?_, hskip.imp_right fun h => Nat.le_add_right_of_le h, .inl hagain⟩
    rw [← List.replicate_append_replicate, matches_append_iff]
    exact ⟨_, h, h'⟩

theorem exists_laps_of_matches
    (hW : ∀ (s : Cursor) j, body.Matches flags text s.offset j → ∃ run t, W s run t ∧ t.offset = j)
    (h : Matches flags text (.sequence (List.replicate (n + 1) body)) s.offset j)
    (hagain : b.shape.again = true ∨ n = 0) :
    ∃ run t, Region.Laps b W s run t ∧ t.offset = j := by
  induction n generalizing s with
  | zero =>
    obtain ⟨k, h, h'⟩ := matches_cons_iff.1 h
    obtain rfl := matches_nil_iff.1 h'
    obtain ⟨run, t, hw, rfl⟩ := hW s _ h
    exact ⟨_, t, .leave (.through hw), rfl⟩
  | succ n ih =>
    have hagain : b.shape.again = true := by simpa using hagain
    obtain ⟨k, h, h'⟩ := matches_cons_iff.1 h
    obtain ⟨run, t, hw, rfl⟩ := hW s _ h
    obtain ⟨run', u, hlaps, rfl⟩ := ih h' (.inl hagain)
    exact ⟨_, u, .again hagain (.through hw) hlaps, rfl⟩

theorem admits_iff {shape : Fragment.Shape} (ht : times.shape? = some shape) :
    times.Admits n ↔ (shape.skip = true ∨ 1 ≤ n) ∧ (shape.again = true ∨ n ≤ 1) := by
  cases times with
  | counted => cases ht
  | _ =>
    obtain rfl := Option.some.inj ht
    simp [Repetition.Admits]

/-- A walk through the region of a pattern is a match of the pattern. -/
theorem Renders.matches_of_walk (hr : p.Renders r) (h : r.Walk flags text s run t) :
    p.Matches flags text s.offset t.offset := by
  induction hr generalizing s run t with
  | @anchor a target =>
    obtain ⟨offset, hpass, -, rfl⟩ := h
    have hholds : a.holds text s.offset flags.multiline = true := by
      by_contra hnot
      simp [Label.pass?, hnot] at hpass
    obtain rfl : offset = s.offset := Label.pass?_eq_of_isEpsilon rfl hpass
    exact .anchor hholds
  | char =>
    obtain ⟨offset, hpass, -, rfl⟩ := h
    obtain ⟨c, hc, haccepts, rfl⟩ := (Label.pass?_consuming rfl).1 hpass
    obtain rfl := beq_iff_eq.1 haccepts
    exact .char hc
  | charClass =>
    obtain ⟨offset, hpass, -, rfl⟩ := h
    obtain ⟨c, hc, haccepts, rfl⟩ := (Label.pass?_consuming rfl).1 hpass
    exact .charClass hc haccepts
  | set hset =>
    obtain ⟨offset, hpass, -, rfl⟩ := h
    obtain ⟨c, hc, haccepts, rfl⟩ := (Label.pass?_consuming rfl).1 hpass
    exact .set hc (SetItem.contains_of_foldlM hset c ▸ haccepts)
  | nil =>
    obtain ⟨-, rfl⟩ := h
    exact .nil
  | cons _ _ ih ih' =>
    obtain ⟨run₁, m, run₂, h, h', -⟩ := h
    exact .cons (ih h) (ih' h')
  | alternation _ ih =>
    obtain ⟨i, hi, run', h, -⟩ := h
    exact .branch (List.getElem_mem hi) (ih i hi h)
  | block ht _ ih =>
    obtain ⟨run', h, -⟩ := h
    obtain ⟨n, h, hskip, hagain⟩ := matches_of_laps (fun _ _ _ h => ih h) h
    exact .repeated ((admits_iff ht).2 ⟨hskip, hagain⟩) h
  | counted hle _ ih => exact (matches_unrolled_iff hle).1 (ih h)
  | group _ ih => exact .group (ih h)
  | @capture index first last body r _ ih =>
    obtain ⟨m, run', h, -, rfl⟩ := h
    exact .group (ih h : body.Matches flags text s.offset m.offset)

/-- Every match of a pattern is the way of a walk through its region. -/
theorem Renders.exists_walk (hr : p.Renders r) (s : Cursor)
    (h : p.Matches flags text s.offset j) : ∃ run t, r.Walk flags text s run t ∧ t.offset = j := by
  induction hr generalizing s j with
  | @anchor a target =>
    cases h with
    | anchor hholds =>
      exact ⟨_, _, ⟨s.offset, by simp [Label.pass?, hholds], rfl, rfl⟩, rfl⟩
  | char =>
    cases h with
    | char hc =>
      exact ⟨_, _, ⟨_, (Label.pass?_consuming rfl).2 ⟨_, hc, beq_self_eq_true _, rfl⟩, rfl, rfl⟩,
        rfl⟩
  | charClass =>
    cases h with
    | charClass hc haccepts =>
      exact ⟨_, _, ⟨_, (Label.pass?_consuming rfl).2 ⟨_, hc, haccepts, rfl⟩, rfl, rfl⟩, rfl⟩
  | set hset =>
    cases h with
    | set hc haccepts =>
      have haccepts := (SetItem.contains_of_foldlM hset _).trans haccepts
      exact ⟨_, _, ⟨_, (Label.pass?_consuming rfl).2 ⟨_, hc, haccepts, rfl⟩, rfl, rfl⟩, rfl⟩
  | nil =>
    obtain rfl := matches_nil_iff.1 h
    exact ⟨[], s, ⟨rfl, rfl⟩, rfl⟩
  | cons _ _ ih ih' =>
    obtain ⟨k, h, h'⟩ := matches_cons_iff.1 h
    obtain ⟨run, t, hw, rfl⟩ := ih s h
    obtain ⟨run', u, hw', rfl⟩ := ih' t h'
    exact ⟨_, u, ⟨_, t, _, hw, hw', rfl⟩, rfl⟩
  | alternation _ ih =>
    cases h with
    | branch hmem h =>
      obtain ⟨i, hi, rfl⟩ := List.getElem_of_mem hmem
      obtain ⟨run, t, hw, rfl⟩ := ih i hi s h
      exact ⟨_, t, ⟨i, hi, run, hw, rfl⟩, rfl⟩
  | @block body times b r ht _ ih =>
    obtain ⟨n, hn, h⟩ := matches_repeated_iff.1 h
    obtain ⟨hskip, hagain⟩ := (admits_iff ht).1 hn
    cases n with
    | zero =>
      obtain rfl := matches_nil_iff.1 h
      have hskip : b.shape.skip = true := by simpa using hskip
      exact ⟨_, s, ⟨_, .leave (.skip hskip), rfl⟩, rfl⟩
    | succ n =>
      obtain ⟨run, t, hlaps, rfl⟩ := exists_laps_of_matches (b := b) (fun s _ => ih s) h
        (hagain.imp_right fun h => by omega)
      exact ⟨_, t, ⟨run, hlaps, rfl⟩, rfl⟩
  | counted hle _ ih => exact ih s ((matches_unrolled_iff hle).2 h)
  | group _ ih =>
    cases h with
    | group h => exact ih s h
  | @capture index _ _ _ _ _ ih =>
    cases h with
    | group h =>
      obtain ⟨run, t, hw, rfl⟩ := ih s h
      exact ⟨_, t.report index s.offset, ⟨t, run, hw, rfl, rfl⟩, rfl⟩

end Walks

end Pattern

namespace Automaton

variable {a : Automaton} {r : Region} {text : String}

/-- Nothing follows the final state of a region. -/
theorem IsRegion.accepting_exit_iff (hr : a.IsRegion r) {offset : Nat} {run : List Visit} :
    a.Accepting text ⟨r.exit 0, offset⟩ run ↔ run = [] := by
  constructor
  · rintro (_ | ⟨⟨e, he, -⟩, -⟩)
    · rfl
    · rw [hr.open_exit] at he
      cases he
  · rintro rfl
    exact .final ((hr.final_iff _).2 rfl)

theorem IsRegion.accepts_exit (hr : a.IsRegion r) (offset : Nat) :
    a.Accepts text ⟨r.exit 0, offset⟩ :=
  ⟨[], hr.accepting_exit_iff.2 rfl⟩

/-- A search in a region gives a walk through it, or there is no walk. -/
theorem IsRegion.exec_walk (hr : a.IsRegion r) (text : String) (s : Cursor) :
    ∃ result, Matcher.exec ⟨a, {}⟩ text s.offset = .ok result ∧
      (result = none → ∀ run t, ¬r.Walk a.flags text s run t) ∧
      ∀ p, result = some p → ∃ run t, p.visits = ⟨0, s.offset⟩ :: run ∧
        r.Walk a.flags text s run t ∧ p.stop = t.offset := by
  obtain ⟨result, hexec, hnone, hsome⟩ := exec_accepting text hr.closed s.offset
  refine ⟨result, hexec, fun h run t hwalk => ?_, fun p hp => ?_⟩
  · exact hnone h ((Region.accepts_iff hr.finalsEnd hr.fits s).2
      ⟨run, t, hwalk, hr.accepts_exit t.offset⟩)
  · obtain ⟨run, hvisits, hrun⟩ := hsome p hp
    obtain ⟨run₁, t, run₂, rfl, hwalk, hrest⟩ := Region.exists_walk hr.finalsEnd hr.fits hrun
    obtain rfl := hr.accepting_exit_iff.1 hrest
    rw [List.append_nil] at hvisits
    refine ⟨run₁, t, hvisits, hwalk, ?_⟩
    rw [Path.stop, Path.last_eq_getLastD hvisits, hwalk.getLastD_eq]

end Automaton

namespace Pattern

/-- A search without limits for a pattern of fewer than `2 ^ 29` nodes gives a result. It accepts
just when the pattern matches from where it starts, and then the pattern matches up to the end of
the path. -/
theorem exec_iff_matches {p : Pattern} {flags : Flags} {a : Automaton} (hn : p.nodes < 2 ^ 29)
    (hb : p.build flags = .ok a) (text : String) (start : Nat) :
    ∃ result, Matcher.exec ⟨a, {}⟩ text start = .ok result ∧
      (result.isSome = true ↔ ∃ stop, p.Matches flags text start stop) ∧
      ∀ path, result = some path → p.Matches flags text start path.stop := by
  obtain ⟨r, hr, hregion, rfl, -⟩ := renders_of_build hn hb
  obtain ⟨result, hexec, hnone, hsome⟩ := hregion.exec_walk text ⟨start, fun _ => none⟩
  have hmatch : ∀ path, result = some path → p.Matches a.flags text start path.stop := by
    intro path hpath
    obtain ⟨run, t, -, hwalk, hstop⟩ := hsome path hpath
    exact hstop ▸ hr.matches_of_walk hwalk
  refine ⟨result, hexec, ⟨fun h => ?_, ?_⟩, hmatch⟩
  · obtain ⟨path, hpath⟩ := Option.isSome_iff_exists.1 h
    exact ⟨_, hmatch path hpath⟩
  · rintro ⟨stop, h⟩
    obtain ⟨run, t, hwalk, -⟩ := hr.exists_walk ⟨start, fun _ => none⟩ h
    exact Option.isSome_iff_ne_none.2 fun hresult => hnone hresult run t hwalk

/-- `((a*)*b??)+c`, loops whose bodies match the empty text inside one another. -/
def nestedLoops : Pattern :=
  .sequence [.repeated (.group (some 1) (.sequence [
    .repeated (.repeated (.char 'a') .star true) .star true,
    .repeated (.char 'b') .optional false])) .plus true, .char 'c']

theorem exec_iff_matches_nestedLoops :
    nestedLoops.nodes < 2 ^ 29 ∧ ∃ a, nestedLoops.build {} = .ok a ∧
      ∃ path, Matcher.exec ⟨a, {}⟩ "aabc" 0 = .ok (some path) ∧
        nestedLoops.Matches {} "aabc" 0 path.stop := by
  obtain ⟨a, hb⟩ := exists_of_isOk (x := nestedLoops.build {}) (by decide +kernel)
  refine ⟨by decide, a, hb, ?_⟩
  obtain ⟨result, hexec, hiff, hmatch⟩ := exec_iff_matches (by decide) hb "aabc" 0
  have hloops : Matches {} "aabc" (.repeated (.repeated (.char 'a') .star true) .star true) 0 2 :=
    .repeated (n := 1) trivial (.cons (.repeated (n := 2) trivial
      (.cons (.char (by decide)) (.cons (.char (by decide)) .nil))) .nil)
  have hoptional : Matches {} "aabc" (.repeated (.char 'b') .optional false) 2 3 :=
    .repeated (n := 1) (Nat.le_refl 1) (.cons (.char (by decide)) .nil)
  have hall : nestedLoops.Matches {} "aabc" 0 4 :=
    .cons (.repeated (n := 1) (Nat.le_refl 1)
      (.cons (.group (.cons hloops (.cons hoptional .nil))) .nil))
      (.cons (.char (by decide)) .nil)
  obtain ⟨path, rfl⟩ := Option.isSome_iff_exists.1 (hiff.2 ⟨4, hall⟩)
  exact ⟨path, hexec, hmatch path rfl⟩

end Pattern

end PatternAutomata
