import PatternAutomata.Proofs.Search.Extent
import PatternAutomata.Proofs.Text.Bytes
import PatternAutomata.Search.Template

/-!
# Templates by offsets

A template can be read without taking it apart into characters. Its bytes are searched for dollar
signs, and what lies between two of them is cut out as a whole; where a cut has to begin is kept in
mind until it is known where it ends. All cuts are made between characters, and what the pieces
expand to is what one scan over the characters puts together.

## Main definitions

* `Template.cut` — the pieces of a template, cut out at byte offsets.
* `Template.Scans` — one scan over the characters of a template, from left to right.

## Main statements

* `Template.scans_iff` — what a scan puts together, and the references that it meets.
* `Template.exists_cutFrom` — the pieces that are cut out from a boundary on.
* `Template.parse_scans` — a template, its pieces and the scan over it.
-/
namespace PatternAutomata

/-- The text of group `index`, which is empty for indices that a word does not hold and for groups
that there are not or that took no part. -/
def Match.textOf (r : Match) (index : Nat) : String :=
  if index < UInt64.size then (r.group? index).getD "" else ""

/-- All ranges lie between characters of the text, and a word counts them. -/
structure Match.Fits (r : Match) : Prop where
  ordered : ∀ index span, r.span? index = some span → span.Ordered r.text
  length_le : r.spans.length ≤ UInt64.size

namespace Template

/-! ## Cutting at byte offsets -/

/-- What is cut out of a template: text that stands for itself, or a reference to a group, whose
index may be too large for a word. -/
inductive Cut where
  | literal (text : String)
  | group (index : Option Nat)
  deriving DecidableEq, Repr

/-- A dollar sign. -/
def dollar : UInt8 :=
  0x24

/-- Goes on at byte `i` of a template. The text from `first` on stands for itself and is still to be
cut out, up to a place that is not known yet. Of two dollar signs the first one is kept and the
second one is dropped. Cutting fails where no character begins. -/
def cutFrom (source : String) (first i : Nat) : Option (List Cut) :=
  match _h : (Text.bytes source)[i]? with
  | none => do
    let text ← Text.slice? source first (Text.bytes source).length
    return [.literal text]
  | some b =>
    if b ≠ dollar then cutFrom source first (i + 1)
    else
      match (Text.bytes source)[i + 1]? with
      | none => cutFrom source first (i + 1)
      | some b =>
        if b = dollar then do
          let text ← Text.slice? source first (i + 1)
          (cutFrom source (i + 2) (i + 2)).map (.literal text :: ·)
        else if Text.isDigitByte b then do
          let text ← Text.slice? source first i
          let stop :=
            i + 1 + (((Text.bytes source).drop (i + 1)).takeWhile Text.isDigitByte).length
          let digits ← Text.slice? source (i + 1) stop
          let piece := Cut.group (Text.unsigned? (UInt64.size) digits.toList)
          (cutFrom source stop stop).map (.literal text :: piece :: ·)
        else cutFrom source first (i + 1)
termination_by (Text.bytes source).length - i
decreasing_by
  all_goals
    have := (List.getElem?_eq_some_iff.1 _h).1
    omega

/-- The pieces of a template, without empty ones. -/
def cut (source : String) : Option (List Cut) :=
  (cutFrom source 0 0).map (·.filter (· ≠ .literal ""))

def Cut.isLiteral : Cut → Bool
  | literal _ => true
  | group _ => false

/-- What a piece expands to. Cutting the range of a group out of the text may fail. -/
def Cut.expand (r : Match) : Cut → Option String
  | literal text => some text
  | group none => some ""
  | group (some index) =>
    match r.span? index with
    | none => some ""
    | some s => Text.slice? r.text s.start s.stop

/-- What the pieces expand to, one after the other. -/
def expandCuts (r : Match) (cuts : List Cut) : Option String :=
  (cuts.mapM (Cut.expand r)).map String.join

/-! ## Scanning characters -/

/-- The scan over some characters puts a text together, and meets references to groups. -/
inductive Scans (text : Nat → String) : List Char → String → List Nat → Prop where
  | nil : Scans text [] "" []
  /-- Two dollar signs are one. -/
  | dollars {cs out indices} : Scans text cs out indices →
      Scans text ('$' :: '$' :: cs) ("$" ++ out) indices
  /-- A dollar sign with digits is a reference; as many digits are taken as there are. -/
  | group {digits cs out indices} : digits ≠ [] → (∀ d ∈ digits, isDigit d = true) →
      (∀ c ∈ cs.head?, isDigit c = false) → Scans text cs out indices →
      Scans text ('$' :: (digits ++ cs)) (text (Text.decimalValue digits) ++ out)
        (Text.decimalValue digits :: indices)
  /-- Any other dollar sign stands for itself. -/
  | lone {cs out indices} : (∀ c ∈ cs.head?, c ≠ '$' ∧ isDigit c = false) →
      Scans text cs out indices → Scans text ('$' :: cs) ("$" ++ out) indices
  | char {c cs out indices} : c ≠ '$' → Scans text cs out indices →
      Scans text (c :: cs) (c.toString ++ out) indices

def Piece.index? : Piece → Option Nat
  | char _ => none
  | group index => some index

/-- The indices of the groups that a template refers to, in order. -/
def references (t : Template) : List Nat :=
  t.pieces.filterMap Piece.index?

/-- A text with every dollar sign doubled. -/
def doubled (s : String) : String :=
  .ofList (s.toList.flatMap fun c => if c = '$' then ['$', '$'] else [c])

/-- What a piece stands for if the groups stand for `text`. -/
def Piece.fill (text : Nat → String) : Piece → String
  | char c => c.toString
  | group index => text index

@[inherit_doc Piece.fill]
def Cut.fill (text : Nat → String) : Cut → String
  | literal part => part
  | group none => ""
  | group (some index) => text index

variable {text : Nat → String} {source before kept out : String} {c : Char}
  {cs digits : List Char} {indices : List Nat} {r : Match} {first i : Nat}

/-! ## The scan and the pieces -/

theorem readPieces_char (h : c ≠ '$') : readPieces (c :: cs) = .char c :: readPieces cs := by
  rw [readPieces] <;> simp [h]

theorem readPieces_lone (h : ∀ c ∈ cs.head?, c ≠ '$' ∧ isDigit c = false) :
    readPieces ('$' :: cs) = .char '$' :: readPieces cs := by
  cases cs with
  | nil => simp [readPieces]
  | cons d rest =>
    obtain ⟨hd, hdigit⟩ := h d rfl
    rw [readPieces, if_neg (by simp [hdigit])]
    simpa using hd

theorem readPieces_group (hne : digits ≠ []) (hdigits : ∀ d ∈ digits, isDigit d = true)
    (hcs : ∀ c ∈ cs.head?, isDigit c = false) :
    readPieces ('$' :: (digits ++ cs)) = .group (Text.decimalValue digits) :: readPieces cs := by
  obtain ⟨d, ds, rfl⟩ := List.exists_cons_of_ne_nil hne
  obtain ⟨hd, hds⟩ := List.forall_mem_cons.1 hdigits
  have hdollar : d ≠ '$' := by
    rintro rfl
    exact absurd hd (by decide)
  have htake : cs.takeWhile isDigit = [] := by
    cases cs with
    | nil => rfl
    | cons c cs => exact List.takeWhile_cons_of_neg (by simp [hcs c rfl])
  have hdrop : cs.dropWhile isDigit = cs := by
    have := List.takeWhile_append_dropWhile (p := isDigit) (l := cs)
    rwa [htake, List.nil_append] at this
  rw [List.cons_append, readPieces, if_pos hd, List.takeWhile_append_of_pos hds, htake,
    List.append_nil, List.dropWhile_append_of_pos hds, hdrop]
  simpa using hdollar

/-- A scan puts together what the pieces stand for, and meets the references among them. -/
theorem Scans.eq (h : Scans text cs out indices) :
    out = String.join ((readPieces cs).map (Piece.fill text)) ∧
      indices = (readPieces cs).filterMap Piece.index? := by
  induction h with
  | nil => simp [readPieces]
  | dollars _ ih =>
    obtain ⟨rfl, rfl⟩ := ih
    rw [readPieces]
    simp [Piece.fill, Piece.index?]
    rfl
  | group hne hdigits hcs _ ih =>
    obtain ⟨rfl, rfl⟩ := ih
    rw [readPieces_group hne hdigits hcs]
    simp [Piece.fill, Piece.index?]
  | lone hcs _ ih =>
    obtain ⟨rfl, rfl⟩ := ih
    rw [readPieces_lone hcs]
    simp [Piece.fill, Piece.index?]
    rfl
  | char hc _ ih =>
    obtain ⟨rfl, rfl⟩ := ih
    rw [readPieces_char hc]
    exact ⟨by simp [Piece.fill], rfl⟩

/-- Every template can be scanned. -/
theorem exists_scans (text : Nat → String) (cs : List Char) :
    ∃ out indices, Scans text cs out indices := by
  induction cs using readPieces.induct with
  | case1 => exact ⟨_, _, .nil⟩
  | case2 rest ih =>
    obtain ⟨out, indices, h⟩ := ih
    exact ⟨_, _, h.dollars⟩
  | case3 d rest _ hd ih =>
    obtain ⟨out, indices, h⟩ := ih
    have hdigits : ∀ d' ∈ d :: rest.takeWhile isDigit, isDigit d' = true :=
      List.forall_mem_cons.2 ⟨hd, List.all_eq_true.1 List.all_takeWhile⟩
    have hend : ∀ c ∈ (rest.dropWhile isDigit).head?, isDigit c = false := by
      intro c hc
      have hnot := List.head?_dropWhile_not isDigit rest
      rwa [hc] at hnot
    have hscan := h.group (List.cons_ne_nil _ _) hdigits hend
    rw [List.cons_append, List.takeWhile_append_dropWhile] at hscan
    exact ⟨_, _, hscan⟩
  | case4 d rest hdollar hd ih =>
    obtain ⟨out, indices, h⟩ := ih
    refine ⟨_, _, h.lone fun c hc => ?_⟩
    obtain rfl := Option.some.inj hc
    exact ⟨by simpa using hdollar, by simpa using hd⟩
  | case5 c rest _ hlast ih =>
    obtain ⟨out, indices, h⟩ := ih
    by_cases hc : c = '$'
    · subst hc
      refine ⟨_, _, h.lone fun d hd => ?_⟩
      obtain ⟨rest, rfl⟩ := List.head?_eq_some_iff.1 hd
      exact (hlast d rest rfl rfl).elim
    · exact ⟨_, _, h.char hc⟩

theorem scans_iff : Scans text cs out indices ↔
    out = String.join ((readPieces cs).map (Piece.fill text)) ∧
      indices = (readPieces cs).filterMap Piece.index? := by
  refine ⟨Scans.eq, ?_⟩
  rintro ⟨rfl, rfl⟩
  obtain ⟨out, indices, h⟩ := exists_scans text cs
  obtain ⟨hout, hindices⟩ := h.eq
  exact hout ▸ hindices ▸ h

/-! ## What is cut out from a boundary on -/

/-- Among the bytes of a text a dollar sign is found where one begins. -/
theorem eq_of_dollar_mem (h : dollar ∈ String.utf8EncodeChar c) : c = '$' :=
  Char.toNat_inj.1 (Text.toNat_of_mem_utf8EncodeChar h (by decide))

theorem cutFrom_end (hi : (Text.bytes source)[i]? = none) (first : Nat) :
    cutFrom source first i =
      (Text.slice? source first (Text.bytes source).length).map ([.literal ·]) := by
  rw [cutFrom]
  split
  · cases Text.slice? source first (Text.bytes source).length <;> rfl
  · rename_i hsome
    cases hi.symm.trans hsome

/-- A byte is passed over unless it is a dollar sign with one more or a digit behind it. -/
theorem cutFrom_pass {b : UInt8} (hi : (Text.bytes source)[i]? = some b)
    (hb : b = dollar →
      ∀ b' ∈ (Text.bytes source)[i + 1]?, b' ≠ dollar ∧ Text.isDigitByte b' = false)
    (first : Nat) : cutFrom source first i = cutFrom source first (i + 1) := by
  rw [cutFrom]
  split
  · rename_i hnone
    cases hi.symm.trans hnone
  · rename_i b' hb'
    obtain rfl := Option.some.inj (hi.symm.trans hb')
    split
    · rfl
    · rename_i hdollar
      split
      · rfl
      · rename_i b' hb'
        obtain ⟨hne, hdigit⟩ := hb (not_ne_iff.1 hdollar) b' hb'
        rw [if_neg hne, if_neg (by simp [hdigit])]

theorem cutFrom_passAll {bs bs' : List UInt8} (hi : (Text.bytes source).drop i = bs ++ bs')
    (hbs : dollar ∉ bs) (first : Nat) :
    cutFrom source first i = cutFrom source first (i + bs.length) := by
  induction bs generalizing i with
  | nil => rfl
  | cons b bs ih =>
    obtain ⟨hb, hbs⟩ := not_or.1 (mt List.mem_cons.2 hbs)
    have hat : (Text.bytes source)[i]? = some b := by
      rw [← List.head?_drop, hi]
      rfl
    have hrest : (Text.bytes source).drop (i + 1) = bs ++ bs' := by
      rw [← List.tail_drop, hi]
      rfl
    rw [cutFrom_pass hat (fun h => absurd h.symm hb), ih hrest hbs, List.length_cons]
    congr 1
    omega

/-- The indices that are read off the digits of a reference. -/
theorem fill_unsigned? (htext : ∀ index, UInt64.size ≤ index → text index = "") (hne : digits ≠ [])
    (hdigits : ∀ d ∈ digits, isDigit d = true) :
    Cut.fill text (.group (Text.unsigned? (UInt64.size) digits)) = text (Text.decimalValue digits) := by
  have hplus : digits.head? ≠ some '+' := fun hhead =>
    absurd (hdigits _ (List.mem_of_head? hhead)) (by decide)
  have hall : digits.all isDigit = true := List.all_eq_true.2 hdigits
  simp only [Text.unsigned?, if_neg hplus]
  rcases Nat.lt_or_ge (Text.decimalValue digits) (UInt64.size) with hlt | hge
  · rw [if_pos ⟨hne, hall, hlt⟩]
    rfl
  · rw [if_neg fun h => absurd h.2.2 (Nat.not_lt.2 hge), htext _ hge]
    rfl

/-- The bytes from a boundary on. -/
theorem getElem?_bytes (hsource : source = before ++ .ofList cs) (k : Nat) :
    (Text.bytes source)[before.utf8ByteSize + k]? =
      (cs.flatMap String.utf8EncodeChar)[k]? := by
  rw [← List.getElem?_drop, hsource, Text.drop_bytes]

/-- A byte that stands first belongs to the character that stands first. -/
theorem exists_of_head_bytes {b : UInt8} (h : (cs.flatMap String.utf8EncodeChar)[0]? = some b) :
    ∃ c ∈ cs.head?, b ∈ String.utf8EncodeChar c := by
  cases cs with
  | nil => cases h
  | cons c cs =>
    obtain ⟨b', bs, hbs⟩ := List.exists_cons_of_ne_nil (String.utf8EncodeChar_ne_nil (c := c))
    rw [List.flatMap_cons, hbs] at h
    obtain rfl := Option.some.inj h
    exact ⟨c, rfl, by simp [hbs]⟩

/-- A character is passed over unless it is a dollar sign with one more or a digit behind it. -/
theorem cutFrom_keep (hsource : source = before ++ .ofList (c :: cs))
    (hc : c = '$' → ∀ d ∈ cs.head?, d ≠ '$' ∧ isDigit d = false) (first : Nat) :
    cutFrom source first before.utf8ByteSize =
      cutFrom source first (before ++ String.singleton c).utf8ByteSize := by
  have hbytes := getElem?_bytes hsource
  rw [String.utf8ByteSize_append, String.utf8ByteSize_singleton]
  by_cases hdollar : c = '$'
  · subst hdollar
    refine cutFrom_pass (hbytes 0) (fun _ b hb => ?_) first
    have hhead : (cs.flatMap String.utf8EncodeChar)[0]? = some b := (hbytes 1).symm.trans hb
    obtain ⟨d, hd, hb⟩ := exists_of_head_bytes hhead
    obtain ⟨hne, hdigit⟩ := hc rfl d hd
    refine ⟨?_, (Text.isDigitByte_of_mem hb).trans hdigit⟩
    rintro rfl
    exact hne (eq_of_dollar_mem hb)
  · have hdrop : (Text.bytes source).drop before.utf8ByteSize =
        String.utf8EncodeChar c ++ cs.flatMap String.utf8EncodeChar := by
      rw [hsource, Text.drop_bytes, List.flatMap_cons]
    rw [cutFrom_passAll hdrop fun h => hdollar (eq_of_dollar_mem h), String.length_utf8EncodeChar]

/-- Of two dollar signs the first one is kept. -/
theorem cutFrom_dollars (hsource : source = before ++ kept ++ .ofList ('$' :: '$' :: cs)) :
    cutFrom source before.utf8ByteSize (before ++ kept).utf8ByteSize =
      (cutFrom source (before ++ kept ++ "$$").utf8ByteSize
        (before ++ kept ++ "$$").utf8ByteSize).map (.literal (kept ++ "$") :: ·) := by
  have hfirst : (Text.bytes source)[(before ++ kept).utf8ByteSize]? = some dollar :=
    getElem?_bytes hsource 0
  have hsecond : (Text.bytes source)[(before ++ kept).utf8ByteSize + 1]? = some dollar :=
    getElem?_bytes hsource 1
  have hslice : Text.slice? source before.utf8ByteSize ((before ++ kept).utf8ByteSize + 1) =
      some (kept ++ "$") := by
    refine Text.slice?_eq_some_iff.2 ⟨before, "$" ++ .ofList cs, ?_, rfl, ?_⟩
    · rw [hsource, String.ofList_cons, String.ofList_cons]
      simp only [String.append_assoc]
      rfl
    · rw [← String.append_assoc]
      exact String.utf8ByteSize_append
  have hstop : (before ++ kept ++ "$$").utf8ByteSize = (before ++ kept).utf8ByteSize + 2 :=
    String.utf8ByteSize_append
  rw [cutFrom]
  split
  · rename_i hnone
    cases hfirst.symm.trans hnone
  · rename_i b hb
    obtain rfl := Option.some.inj (hfirst.symm.trans hb)
    rw [if_neg (not_not.2 rfl), hsecond, hstop]
    dsimp only
    rw [if_pos rfl, hslice]
    rfl

/-- A dollar sign with digits is a reference. -/
theorem cutFrom_reference (hsource : source = before ++ kept ++ .ofList ('$' :: (digits ++ cs)))
    (hne : digits ≠ []) (hdigits : ∀ d ∈ digits, isDigit d = true)
    (hcs : ∀ c ∈ cs.head?, isDigit c = false) :
    cutFrom source before.utf8ByteSize (before ++ kept).utf8ByteSize =
      (cutFrom source (before ++ kept ++ .ofList ('$' :: digits)).utf8ByteSize
        (before ++ kept ++ .ofList ('$' :: digits)).utf8ByteSize).map fun cuts =>
          .literal kept :: .group (Text.unsigned? (UInt64.size) digits) :: cuts := by
  have hdollar : (Text.bytes source)[(before ++ kept).utf8ByteSize]? = some dollar :=
    getElem?_bytes hsource 0
  have hrest : (Text.bytes source).drop ((before ++ kept).utf8ByteSize + 1) =
      (digits ++ cs).flatMap String.utf8EncodeChar := by
    rw [← List.tail_drop, hsource, Text.drop_bytes]
    rfl
  obtain ⟨b, hb, hdigit⟩ : ∃ b, (Text.bytes source)[(before ++ kept).utf8ByteSize + 1]? = some b ∧
      Text.isDigitByte b = true := by
    obtain ⟨d, ds, rfl⟩ := List.exists_cons_of_ne_nil hne
    have hd : isDigit d = true := hdigits d List.mem_cons_self
    have hascii : d.toNat < 0x80 := Nat.lt_of_le_of_lt (Text.isDigit_iff.1 hd).2 (by decide)
    have hd' := Text.utf8EncodeChar_ascii hascii
    refine ⟨UInt8.ofNat d.toNat, ?_, ?_⟩
    · rw [getElem?_bytes hsource 1, List.flatMap_cons, List.cons_append, List.flatMap_cons, hd']
      rfl
    · rw [Text.isDigitByte_of_mem (c := d) (by simp [hd']), hd]
  have hslice : Text.slice? source before.utf8ByteSize (before ++ kept).utf8ByteSize =
      some kept :=
    Text.slice?_eq_some_iff.2 ⟨before, _, by rw [hsource, String.append_assoc], rfl, rfl⟩
  have hstop : (before ++ kept ++ .ofList ('$' :: digits)).utf8ByteSize =
      (before ++ kept).utf8ByteSize + 1 +
        (((Text.bytes source).drop ((before ++ kept).utf8ByteSize + 1)).takeWhile
          Text.isDigitByte).length := by
    rw [hrest, Text.takeWhile_isDigitByte hdigits hcs, ← Text.bytes_ofList, Text.length_bytes,
      String.ofList_cons]
    simp only [String.utf8ByteSize_append, Nat.add_assoc]
    rfl
  have hdigits : Text.slice? source ((before ++ kept).utf8ByteSize + 1)
      (before ++ kept ++ .ofList ('$' :: digits)).utf8ByteSize = some (.ofList digits) := by
    refine Text.slice?_eq_some_iff.2 ⟨before ++ kept ++ "$", .ofList cs, ?_, ?_, ?_⟩
    · rw [hsource, String.ofList_cons, String.ofList_append]
      simp only [String.append_assoc]
      rfl
    · exact String.utf8ByteSize_append
    · rw [String.ofList_cons, ← String.append_assoc]
      rfl
  have hne : b ≠ dollar := by
    rintro rfl
    exact absurd hdigit (by decide)
  rw [cutFrom]
  split
  · rename_i hnone
    cases hdollar.symm.trans hnone
  · rename_i b' hb'
    obtain rfl := Option.some.inj (hdollar.symm.trans hb')
    rw [if_neg (not_not.2 rfl), hb]
    dsimp only
    rw [if_neg hne, if_pos hdigit, ← hstop, hslice, hdigits]
    simp only [Option.bind_eq_bind, Option.bind_some, String.toList_ofList]

/-- The pieces that are cut out from a boundary on, where `kept` stands for itself and is still to
be cut out. They stand for what the scan puts together, and are all literal if it meets no
reference. The text `kept` grows until a piece is cut out, and begins anew behind it. -/
theorem exists_cutFrom (htext : ∀ index, UInt64.size ≤ index → text index = "")
    (h : Scans text cs out indices) (hsource : source = before ++ kept ++ .ofList cs) :
    ∃ cuts, cutFrom source before.utf8ByteSize (before ++ kept).utf8ByteSize = some cuts ∧
      String.join (cuts.map (Cut.fill text)) = kept ++ out ∧
      cuts.all Cut.isLiteral = indices.isEmpty := by
  induction h generalizing before kept with
  | nil =>
    have hslice : Text.slice? source before.utf8ByteSize (Text.bytes source).length = some kept :=
      Text.slice?_eq_some_iff.2 ⟨before, "", by simp [hsource], rfl, by
        simp [Text.length_bytes, hsource]⟩
    refine ⟨[.literal kept], ?_, by simp [Cut.fill], rfl⟩
    rw [cutFrom_end (i := (before ++ kept).utf8ByteSize) (getElem?_bytes hsource 0), hslice]
    rfl
  | @dollars cs out indices _ ih =>
    have hnext : source = before ++ kept ++ "$$" ++ "" ++ .ofList cs := by
      rw [hsource, String.ofList_cons, String.ofList_cons, String.append_empty]
      simp only [String.append_assoc]
      rfl
    obtain ⟨cuts, hcuts, hfill, hlit⟩ := ih hnext
    rw [String.append_empty] at hcuts
    refine ⟨.literal (kept ++ "$") :: cuts, ?_, ?_, hlit⟩
    · rw [cutFrom_dollars hsource, hcuts]
      rfl
    · simp [Cut.fill, hfill, String.append_assoc]
  | @group digits cs out indices hne hdigits hcs _ ih =>
    have hnext : source = before ++ kept ++ .ofList ('$' :: digits) ++ "" ++ .ofList cs := by
      rw [hsource, ← List.cons_append, String.ofList_append, String.append_empty]
      simp only [String.append_assoc]
    obtain ⟨cuts, hcuts, hfill, hlit⟩ := ih hnext
    rw [String.append_empty] at hcuts
    refine ⟨.literal kept :: .group (Text.unsigned? (UInt64.size) digits) :: cuts, ?_, ?_, rfl⟩
    · rw [cutFrom_reference hsource hne hdigits hcs, hcuts]
      rfl
    · rw [List.map_cons, List.map_cons, fill_unsigned? htext hne hdigits]
      simp [Cut.fill, hfill]
  | @lone cs out indices hcs _ ih =>
    have hnext : source = before ++ (kept ++ "$") ++ .ofList cs := by
      rw [hsource, String.ofList_cons]
      simp only [String.append_assoc]
      rfl
    obtain ⟨cuts, hcuts, hfill, hlit⟩ := ih hnext
    refine ⟨cuts, ?_, by rw [hfill, String.append_assoc], hlit⟩
    rw [cutFrom_keep hsource fun _ => hcs, ← hcuts, String.append_assoc]
    rfl
  | @char c cs out indices hc _ ih =>
    have hnext : source = before ++ (kept ++ c.toString) ++ .ofList cs := by
      rw [hsource, String.ofList_cons]
      simp only [String.append_assoc]
      rfl
    obtain ⟨cuts, hcuts, hfill, hlit⟩ := ih hnext
    refine ⟨cuts, ?_, by rw [hfill, String.append_assoc], hlit⟩
    rw [cutFrom_keep hsource fun h => absurd h hc, ← hcuts, String.append_assoc]
    rfl

/-! ## Expansion -/

theorem textOf_of_le (r : Match) {index : Nat} (h : UInt64.size ≤ index) : r.textOf index = "" :=
  if_neg (Nat.not_lt.2 h)

/-- Of a match that fits, the text of a group is what the pieces of a template expand to. -/
theorem textOf_eq (hr : r.Fits) (index : Nat) : r.textOf index = (r.group? index).getD "" := by
  rcases Nat.lt_or_ge index (UInt64.size) with hlt | hge
  · exact if_pos hlt
  · have hnone : r.spans[index]? = none := List.getElem?_eq_none (hr.length_le.trans hge)
    rw [Match.textOf, if_neg (Nat.not_lt.2 hge), Match.group?, Match.span?, hnone]
    rfl

theorem expand_eq (t : Template) (htext : ∀ index, text index = (r.group? index).getD "") :
    t.expand r = String.join (t.pieces.map (Piece.fill text)) := by
  refine congrArg String.join (List.map_congr_left fun p _ => ?_)
  cases p with
  | char c => rfl
  | group index => exact (htext index).symm

theorem Cut.expand_eq (hr : r.Fits) (p : Cut) : p.expand r = some (p.fill r.textOf) := by
  match p with
  | literal _ => rfl
  | group none => rfl
  | group (some index) =>
    rw [expand, fill, textOf_eq hr, Match.group?]
    cases hspan : r.span? index with
    | none => rfl
    | some span =>
      obtain ⟨part, hpart⟩ := (hr.ordered index span hspan).exists_slice
      simp [hpart]

theorem expandCuts_eq (hr : r.Fits) (cuts : List Cut) :
    expandCuts r cuts = some (String.join (cuts.map (Cut.fill r.textOf))) := by
  have hmap : cuts.mapM (Cut.expand r) = some (cuts.map (Cut.fill r.textOf)) := by
    rw [funext (Cut.expand_eq hr)]
    exact List.mapM_pure
  rw [expandCuts, hmap]
  rfl

/-- Empty pieces stand for nothing. -/
theorem join_fill_filter (text : Nat → String) (cuts : List Cut) :
    String.join ((cuts.filter (· ≠ .literal "")).map (Cut.fill text)) =
      String.join (cuts.map (Cut.fill text)) := by
  induction cuts with
  | nil => rfl
  | cons p cuts ih =>
    by_cases hp : p = .literal ""
    · subst hp
      simpa [Cut.fill] using ih
    · rw [List.filter_cons_of_pos (by simpa using hp)]
      simp only [List.map_cons, String.join_cons, ih]

theorem all_isLiteral_filter (cuts : List Cut) :
    (cuts.filter (· ≠ .literal "")).all Cut.isLiteral = cuts.all Cut.isLiteral := by
  induction cuts with
  | nil => rfl
  | cons p cuts ih =>
    by_cases hp : p = .literal ""
    · subst hp
      simpa [Cut.isLiteral] using ih
    · rw [List.filter_cons_of_pos (by simpa using hp)]
      simp only [List.all_cons, ih]

/-- All pieces are cut out between characters, and stand for what the scan puts together. -/
theorem exists_cut (htext : ∀ index, UInt64.size ≤ index → text index = "")
    (h : Scans text source.toList out indices) :
    ∃ cuts, cut source = some cuts ∧ String.join (cuts.map (Cut.fill text)) = out ∧
      cuts.all Cut.isLiteral = indices.isEmpty := by
  have hsource : source = "" ++ "" ++ .ofList source.toList := by simp
  obtain ⟨cuts, hcuts, hfill, hlit⟩ := exists_cutFrom htext h hsource
  refine ⟨cuts.filter (· ≠ .literal ""), ?_, ?_, ?_⟩
  · rw [cut]
    exact congrArg _ hcuts
  · rw [join_fill_filter, hfill, String.empty_append]
  · rw [all_isLiteral_filter, hlit]

/-- A template whose expansion never varies refers to no group. -/
theorem isLiteral_eq (t : Template) : t.isLiteral = t.references.isEmpty := by
  rw [isLiteral, references]
  induction t.pieces with
  | nil => rfl
  | cons p ps ih =>
    cases p with
    | char c => exact ih
    | group index => rfl

/-- The scan over a text with every dollar sign doubled. -/
theorem scans_doubled (text : Nat → String) (s : String) :
    Scans text (doubled s).toList s [] := by
  rw [doubled, String.toList_ofList]
  suffices h : ∀ cs : List Char, Scans text
      (cs.flatMap fun c => if c = '$' then ['$', '$'] else [c]) (.ofList cs) [] by
    simpa using h s.toList
  intro cs
  induction cs with
  | nil => exact .nil
  | cons c cs ih =>
    rw [List.flatMap_cons, String.ofList_cons]
    split
    · rename_i hc
      subst hc
      exact ih.dollars
    · rename_i hc
      exact .char hc ih

/-- A template, its pieces and the scan over it. No cut fails, not in the template and not in the
text of the match, and what the pieces expand to is what the template expands to. That is what the
one scan over the characters puts together. The expansion never varies if and only if the scan
meets no reference; that is so if every dollar sign of some text is doubled, and then the text
comes back. -/
theorem parse_scans (source : String) :
    (∃ cuts, cut source = some cuts ∧ cuts.all Cut.isLiteral = (parse source).isLiteral ∧
      ∀ r : Match, r.Fits → expandCuts r cuts = some ((parse source).expand r)) ∧
    (∀ r : Match, r.Fits → ∀ out indices, Scans r.textOf source.toList out indices ↔
      out = (parse source).expand r ∧ indices = (parse source).references) ∧
    ((parse source).isLiteral = true ↔ (parse source).references = []) ∧
    (parse (doubled source)).isLiteral = true ∧
    ∀ r : Match, (parse (doubled source)).expand r = source := by
  have hdoubled (text : Nat → String) := (scans_doubled text source).eq
  refine ⟨?_, fun r hr out indices => ?_, ?_, ?_, fun r => ?_⟩
  · obtain ⟨out, indices, hscan⟩ := exists_scans (fun _ => "") source.toList
    obtain ⟨cuts, hcuts, -, hlit⟩ := exists_cut (fun _ _ => rfl) hscan
    refine ⟨cuts, hcuts, ?_, fun r hr => ?_⟩
    · rw [hlit, isLiteral_eq, hscan.eq.2]
      rfl
    · obtain ⟨out, indices, hscan⟩ := exists_scans r.textOf source.toList
      obtain ⟨cuts', hcuts', hfill, -⟩ :=
        exists_cut (fun _ => textOf_of_le r) hscan
      obtain rfl := Option.some.inj (hcuts.symm.trans hcuts')
      rw [expandCuts_eq hr, hfill, expand_eq _ (textOf_eq hr), hscan.eq.1]
      rfl
  · rw [expand_eq _ (textOf_eq hr)]
    exact scans_iff
  · rw [isLiteral_eq, List.isEmpty_iff]
  · rw [isLiteral_eq, List.isEmpty_iff]
    exact (hdoubled fun _ => "").2.symm
  · rw [expand_eq _ fun _ => rfl]
    exact (hdoubled _).1.symm

/-- All kinds of dollar signs, next to a character of more than one byte. -/
theorem parse_scans_dollars :
    let r : Match := ⟨"né", ⟨0, 3⟩, [some ⟨1, 3⟩]⟩
    r.Fits ∧ Scans r.textOf "é$$$1$x$".toList "é$é$x$" [1] ∧
      (∃ cuts, cut "é$$$1$x$" = some cuts ∧ expandCuts r cuts = some "é$é$x$") ∧
      (parse "é$$$1$x$").isLiteral = false := by
  intro r
  have hn : Text.IsBoundary "né" 0 := Text.isBoundary_iff.2 ⟨"", "né", rfl, rfl⟩
  have he : Text.IsBoundary "né" 1 := Text.isBoundary_iff.2 ⟨"n", "é", rfl, rfl⟩
  have hend : Text.IsBoundary "né" 3 := Text.isBoundary_iff.2 ⟨"né", "", rfl, rfl⟩
  have hr : r.Fits := by
    refine ⟨fun index span hspan => ?_, by decide⟩
    match index with
    | 0 =>
      obtain rfl := Option.some.inj hspan
      exact ⟨hn, hend, by decide⟩
    | 1 =>
      obtain rfl := Option.some.inj hspan
      exact ⟨he, hend, by decide⟩
    | index + 2 => cases hspan
  have hgroup : r.textOf 1 = "é" := by
    have hslice : Text.slice? "né" 1 3 = some "é" :=
      Text.slice?_eq_some_iff.2 ⟨"n", "", rfl, rfl, rfl⟩
    simp [Match.textOf, UInt64.size, Match.group?, Match.span?, Match.spans, r, hslice]
  have hscan : Scans r.textOf "é$$$1$x$".toList "é$é$x$" [1] := by
    have hrest : Scans r.textOf ['$', 'x', '$'] "$x$" [] :=
      .lone (by simp [isDigit]) (.char (by decide) (.lone (by simp) .nil))
    have hone : Scans r.textOf ['$', '1', '$', 'x', '$'] "é$x$" [1] := by
      have := hrest.group (List.cons_ne_nil '1' []) (by simp [isDigit]) (by simp [isDigit])
      rwa [show Text.decimalValue ['1'] = 1 from rfl, hgroup] at this
    exact .char (by decide) hone.dollars
  obtain ⟨⟨cuts, hcuts, hlit, hexpand⟩, hscans, hliteral, -, -⟩ := parse_scans "é$$$1$x$"
  obtain ⟨hout, hindices⟩ := (hscans r hr _ _).1 hscan
  refine ⟨hr, hscan, ⟨cuts, hcuts, ?_⟩, ?_⟩
  · rw [hexpand r hr, ← hout]
  · rw [← Bool.not_eq_true, hliteral, ← hindices]
    exact List.cons_ne_nil _ _

end Template

end PatternAutomata
