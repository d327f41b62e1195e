/-!
# Byte offsets into text

A text is a `String`, and a place in it is the number of UTF-8 bytes before that place. Not every
offset is the boundary of a character; reading at one that is not, or past the end, finds nothing.

The lemmas describe each reader by the ways in which the text can be written as an append.
-/
namespace PatternAutomata.Text

/-- The position `offset` bytes into `text`, if a character begins or the text ends there. -/
def position? (text : String) (offset : Nat) : Option text.Pos :=
  if h : (⟨offset⟩ : String.Pos.Raw).IsValid text then some ⟨⟨offset⟩, h⟩ else none

/-- The character that begins at `offset`. -/
def charAt (text : String) (offset : Nat) : Option Char :=
  (position? text offset).bind fun p =>
    if h : p = text.endPos then none else some (p.get h)

/-- The character that ends at `offset`. -/
def charBefore (text : String) (offset : Nat) : Option Char :=
  (position? text offset).bind fun p =>
    if h : p = text.startPos then none else some ((p.prev h).get p.prev_ne_endPos)

/-- The text from `start` up to `stop`, if both are boundaries and in order. -/
def slice? (text : String) (start stop : Nat) : Option String :=
  (position? text start).bind fun p => (position? text stop).bind fun q =>
    if h : p ≤ q then some (text.slice p q h).copy else none

/-- The text with the part from `start` up to `stop` replaced by `replacement`. -/
def splice? (text : String) (start stop : Nat) (replacement : String) : Option String :=
  (position? text start).bind fun p => (position? text stop).bind fun q =>
    if p ≤ q then some ((text.sliceTo p).copy ++ replacement ++ (text.sliceFrom q).copy) else none

/-- The number of bytes that the characters take. -/
def byteLength (cs : List Char) : Nat :=
  cs.foldr (fun c n => c.utf8Size + n) 0

/-- The offsets at which characters begin, counted from `offset`. -/
def startsFrom (offset : Nat) : List Char → List Nat
  | [] => []
  | c :: rest => offset :: startsFrom (offset + c.utf8Size) rest

/-- The offsets at which the characters of `text` begin, in order. -/
def starts (text : String) : List Nat :=
  startsFrom 0 text.toList

theorem position?_eq_some_iff {text : String} {offset : Nat} {p : text.Pos} :
    position? text offset = some p ↔ p.offset.byteIdx = offset := by
  unfold position?
  split
  · rw [Option.some.injEq]
    constructor <;> rintro rfl <;> rfl
  · rename_i h
    simp only [reduceCtorEq, false_iff]
    rintro rfl
    exact h p.isValid

theorem position?_append {before after : String} :
    ∃ p, position? (before ++ after) before.utf8ByteSize = some p ∧ p.Splits before after :=
  ⟨_, position?_eq_some_iff.2 rfl, String.Pos.splits_append_rawEndPos⟩

theorem charAt_eq_some_iff {text : String} {offset : Nat} {c : Char} :
    charAt text offset = some c ↔
      ∃ before after, text = before ++ (String.singleton c ++ after) ∧
        before.utf8ByteSize = offset := by
  constructor
  · intro h
    obtain ⟨p, hp, hc⟩ := Option.bind_eq_some_iff.1 h
    obtain rfl := position?_eq_some_iff.1 hp
    split at hc
    · cases hc
    · rename_i hne
      obtain rfl := Option.some.inj hc
      have hs := p.splits_next_right hne
      exact ⟨_, _, hs.eq_append, by rw [hs.offset_eq_rawEndPos]; rfl⟩
  · rintro ⟨before, after, rfl, rfl⟩
    obtain ⟨p, hp, hs⟩ := @position?_append before (String.singleton c ++ after)
    rw [charAt, hp, Option.bind_some, dif_neg hs.ne_endPos_of_singleton,
      hs.next.get_eq_of_singleton]

theorem charBefore_eq_some_iff {text : String} {offset : Nat} {c : Char} :
    charBefore text offset = some c ↔
      ∃ before after, text = before ++ String.singleton c ++ after ∧
        (before ++ String.singleton c).utf8ByteSize = offset := by
  constructor
  · intro h
    obtain ⟨p, hp, hc⟩ := Option.bind_eq_some_iff.1 h
    obtain rfl := position?_eq_some_iff.1 hp
    split at hc
    · cases hc
    · rename_i hne
      obtain rfl := Option.some.inj hc
      have hs := p.splits_prev_right hne
      exact ⟨_, _, hs.eq_append, by rw [hs.offset_eq_rawEndPos]; rfl⟩
  · rintro ⟨before, after, rfl, rfl⟩
    obtain ⟨p, hp, hs⟩ := @position?_append (before ++ String.singleton c) after
    have hne := hs.ne_startPos_of_singleton
    rw [charBefore, hp, Option.bind_some, dif_neg hne, hs.prev.next.get_eq_of_singleton]

theorem slice?_eq_some_iff {text part : String} {start stop : Nat} :
    slice? text start stop = some part ↔
      ∃ before after, text = before ++ (part ++ after) ∧ before.utf8ByteSize = start ∧
        (before ++ part).utf8ByteSize = stop := by
  constructor
  · intro h
    obtain ⟨p, hp, hq⟩ := Option.bind_eq_some_iff.1 h
    obtain ⟨q, hq, hc⟩ := Option.bind_eq_some_iff.1 hq
    obtain rfl := position?_eq_some_iff.1 hp
    obtain rfl := position?_eq_some_iff.1 hq
    split at hc
    · rename_i hle
      obtain ⟨before, after, hb, ha⟩ :=
        String.copy_slice_eq_iff_splits.1 ⟨hle, Option.some.inj hc⟩
      exact ⟨before, after, hb.eq_append, by rw [hb.offset_eq_rawEndPos]; rfl,
        by rw [ha.offset_eq_rawEndPos]; rfl⟩
    · cases hc
  · rintro ⟨before, after, rfl, rfl, rfl⟩
    obtain ⟨p, hp, hs⟩ := @position?_append before (part ++ after)
    obtain ⟨q, hq⟩ : ∃ q : (before ++ (part ++ after)).Pos, q.Splits (before ++ part) after :=
      ⟨_, String.Pos.splits_ofEqAppend (by rw [String.append_assoc])⟩
    obtain ⟨hle, hc⟩ := String.copy_slice_eq_iff_splits.2 ⟨before, after, hs, hq⟩
    have hq' : position? (before ++ (part ++ after)) (before ++ part).utf8ByteSize = some q :=
      position?_eq_some_iff.2 (by rw [hq.offset_eq_rawEndPos]; rfl)
    rw [slice?, hp, Option.bind_some, hq', Option.bind_some, dif_pos hle, hc]

end PatternAutomata.Text
