import PatternAutomata.Pattern.Parser
import PatternAutomata.Proofs.Pattern.Induction
import PatternAutomata.Proofs.Steps
import PatternAutomata.Proofs.Text.Decimal

/-!
# Patterns that come from a text

A pattern that was parsed has the form that the grammar gives it: a sequence of one item is the
item, an alternation of one branch is the branch, only single atoms are repeated, and the members
of sets and the bounds of counts are within their limits. Capture groups are numbered in order, and
no more groups are nested than is allowed.

## Main definitions

* `Pattern.Normal` — what may stand where in the grammar.
* `Pattern.IsNormal` — a pattern as the grammar gives it.
* `Pattern.groupDepth` — how many groups are nested in one another.
* `Parser.State.Sound` — what the parser keeps to between two tokens.

## Main statements

* `Parser.State.Sound.step` — a token keeps to it.
* `Parser.isNormal_of_parse` — so what was parsed is normal.
-/
namespace PatternAutomata

/-- A member of a set as it can be written: ASCII characters, ranges of them in order, and classes
other than that of all characters. -/
def SetItem.IsNormal : SetItem → Prop
  | char c => isAscii c = true
  | range lo hi => isAscii lo = true ∧ isAscii hi = true ∧ lo ≤ hi
  | charClass k => k ≠ .any

instance : DecidablePred SetItem.IsNormal
  | .char c => inferInstanceAs (Decidable (isAscii c = true))
  | .range lo hi => inferInstanceAs (Decidable (isAscii lo = true ∧ isAscii hi = true ∧ lo ≤ hi))
  | .charClass k => inferInstanceAs (Decidable (k ≠ .any))

/-- The bounds of a count are in order and not too large. -/
def Repetition.IsNormal : Repetition → Prop
  | counted min none => min ≤ Parser.maxBound
  | counted min (some max) => min ≤ max ∧ max ≤ Parser.maxBound
  | _ => True

instance : DecidablePred Repetition.IsNormal
  | .optional | .star | .plus => inferInstanceAs (Decidable True)
  | .counted min none => inferInstanceAs (Decidable (min ≤ Parser.maxBound))
  | .counted min (some max) => inferInstanceAs (Decidable (min ≤ max ∧ max ≤ Parser.maxBound))

namespace Pattern

mutual

/-- How many groups, capturing or not, stand inside each other at most. -/
def groupDepth : Pattern → Nat
  | alternation branches => groupDepthAll branches
  | sequence items => groupDepthAll items
  | repeated body _ _ => body.groupDepth
  | group _ body => body.groupDepth + 1
  | anchor _ | char _ | charClass _ | set _ _ => 0

def groupDepthAll : List Pattern → Nat
  | [] => 0
  | p :: rest => max p.groupDepth (groupDepthAll rest)

end

/-- The places of the grammar. -/
inductive Place where
  /-- What may be repeated. -/
  | atom
  | item
  | branch
  /-- A whole pattern, or the body of a group. -/
  | whole
  deriving DecidableEq, Repr

/-- Which patterns stand at which places. -/
inductive Normal : Place → Pattern → Prop
  | char (c : Char) : Normal .atom (.char c)
  | charClass (k : CharClass) : Normal .atom (.charClass k)
  | set (negated : Bool) {items : List SetItem} :
      (∀ i ∈ items, i.IsNormal) → Normal .atom (.set negated items)
  | group (capture : Option Nat) {body : Pattern} :
      Normal .whole body → Normal .atom (.group capture body)
  | ofAtom {p : Pattern} : Normal .atom p → Normal .item p
  | anchor (a : Anchor) : Normal .item (.anchor a)
  | repeated {body : Pattern} {times : Repetition} (greedy : Bool) :
      Normal .atom body → times.IsNormal → Normal .item (.repeated body times greedy)
  | ofItem {p : Pattern} : Normal .item p → Normal .branch p
  | sequence {items : List Pattern} :
      items.length ≠ 1 → (∀ p ∈ items, Normal .item p) → Normal .branch (.sequence items)
  | ofBranch {p : Pattern} : Normal .branch p → Normal .whole p
  | alternation {branches : List Pattern} :
      2 ≤ branches.length → (∀ p ∈ branches, Normal .branch p) →
      Normal .whole (.alternation branches)

/-- The pattern is as the grammar gives it, its capture groups being numbered from 1 in order. -/
structure IsNormal (p : Pattern) : Prop where
  normal : Normal .whole p
  captures_eq : p.captures = List.range' 1 p.captures.length

variable {ps qs : List Pattern} {body : Pattern} {times : Repetition} {greedy : Bool} {n : Nat}

theorem capturesAll_append (ps qs : List Pattern) :
    capturesAll (ps ++ qs) = capturesAll ps ++ capturesAll qs := by
  induction ps with
  | nil => rfl
  | cons p ps ih => rw [List.cons_append, capturesAll, ih, capturesAll, List.append_assoc]

theorem groupDepthAll_le_iff : groupDepthAll ps ≤ n ↔ ∀ p ∈ ps, p.groupDepth ≤ n := by
  induction ps with
  | nil => simp [groupDepthAll]
  | cons p ps ih => rw [groupDepthAll, Nat.max_le, ih, List.forall_mem_cons]

theorem captures_ofItems (ps : List Pattern) : (ofItems ps).captures = capturesAll ps := by
  match ps with
  | [] => rfl
  | [p] => simp [ofItems, capturesAll]
  | p :: q :: ps => rfl

theorem captures_ofBranches (ps : List Pattern) : (ofBranches ps).captures = capturesAll ps := by
  match ps with
  | [] => rfl
  | [p] => simp [ofBranches, capturesAll]
  | p :: q :: ps => rfl

theorem groupDepth_ofItems (ps : List Pattern) : (ofItems ps).groupDepth = groupDepthAll ps := by
  match ps with
  | [] => rfl
  | [p] => simp [ofItems, groupDepthAll]
  | p :: q :: ps => rfl

theorem groupDepth_ofBranches (ps : List Pattern) :
    (ofBranches ps).groupDepth = groupDepthAll ps := by
  match ps with
  | [] => rfl
  | [p] => simp [ofBranches, groupDepthAll]
  | p :: q :: ps => rfl

theorem ofItems_eq_sequence (h : ps.length ≠ 1) : ofItems ps = .sequence ps := by
  rcases ps with _ | ⟨p, _ | ⟨q, ps⟩⟩
  · rfl
  · exact absurd rfl h
  · rfl

theorem ofBranches_eq_alternation (h : 2 ≤ ps.length) : ofBranches ps = .alternation ps := by
  rcases ps with _ | ⟨p, _ | ⟨q, ps⟩⟩
  · rfl
  · simp at h
  · rfl

theorem normal_ofItems (h : ∀ p ∈ ps, Normal .item p) : Normal .branch (ofItems ps) := by
  match ps with
  | [] => exact .sequence (by simp) h
  | [p] => exact .ofItem (h p (by simp))
  | p :: q :: ps => exact .sequence (by simp) h

theorem normal_ofBranches (hne : ps ≠ []) (h : ∀ p ∈ ps, Normal .branch p) :
    Normal .whole (ofBranches ps) := by
  match ps with
  | [] => exact absurd rfl hne
  | [p] => exact .ofBranch (h p (by simp))
  | p :: q :: ps => exact .alternation (by simp) h

theorem Normal.of_repeated (h : Normal .item (.repeated body times greedy)) :
    Normal .atom body ∧ times.IsNormal := by
  cases h with
  | ofAtom h => cases h
  | repeated _ hbody htimes => exact ⟨hbody, htimes⟩

end Pattern

namespace SetItem

theorem isNormal_of_ofRange {lo hi : Char} {start stop : Nat} {item : SetItem}
    (h : ofRange lo hi start stop = .ok item) : item.IsNormal := by
  simp only [ofRange] at h
  split at h
  case isTrue => cases h
  case isFalse hle =>
    split at h
    case isFalse => cases h
    case isTrue hhi =>
      obtain rfl := Except.ok.inj h
      have hle : lo ≤ hi := Char.not_lt.1 hle
      refine ⟨?_, hhi, hle⟩
      have : lo.toNat ≤ hi.toNat := hle
      simp only [isAscii, decide_eq_true_eq] at hhi ⊢
      omega

theorem isNormal_of_ofAtom {atom : SetAtom} {item : SetItem} (hany : atom.kind ≠ .charClass .any)
    (h : ofAtom atom = .ok item) : item.IsNormal := by
  simp only [ofAtom] at h
  split at h
  case h_1 c _ =>
    split at h
    case isTrue hc =>
      obtain rfl := Except.ok.inj h
      exact hc
    case isFalse => cases h
  case h_2 k hk =>
    obtain rfl := Except.ok.inj h
    rintro rfl
    exact hany hk
  case h_3 =>
    obtain rfl := Except.ok.inj h
    exact (rfl : isAscii '-' = true)

/-- Members that were read from a text are normal. -/
theorem isNormal_of_ofAtoms {atoms : List SetAtom} {items : List SetItem}
    (hany : ∀ a ∈ atoms, a.kind ≠ .charClass .any) (h : ofAtoms atoms = .ok items) :
    ∀ i ∈ items, i.IsNormal := by
  fun_induction ofAtoms atoms generalizing items with
  | case1 lo start _ _ _ hi _ stop rest ih =>
    obtain ⟨item, hitem, h⟩ := exists_of_bind_eq_ok h
    obtain ⟨items', hitems, h⟩ := exists_of_bind_eq_ok h
    obtain rfl := Except.ok.inj h
    have hrest : ∀ a ∈ rest, a.kind ≠ .charClass .any := fun a ha => hany a (by simp [ha])
    exact List.forall_mem_cons.2 ⟨isNormal_of_ofRange hitem, ih hrest hitems⟩
  | case2 atom rest _ ih =>
    obtain ⟨item, hitem, h⟩ := exists_of_bind_eq_ok h
    obtain ⟨items', hitems, h⟩ := exists_of_bind_eq_ok h
    obtain rfl := Except.ok.inj h
    obtain ⟨hatom, hrest⟩ := List.forall_mem_cons.1 hany
    exact List.forall_mem_cons.2 ⟨isNormal_of_ofAtom hatom hitem, ih hrest hitems⟩
  | case3 =>
    obtain rfl := Except.ok.inj h
    exact nofun

end SetItem

theorem SetAtom.kind_ne_any {t : Token} {a : SetAtom} (h : a ∈ ofToken t) :
    a.kind ≠ .charClass .any := by
  have hchars {offset : Nat} {cs : List Char} (h : a ∈ ofChars offset cs) :
      a.kind ≠ .charClass .any := by
    induction cs generalizing offset with
    | nil => cases h
    | cons c cs ih =>
      rcases List.mem_cons.1 h with rfl | h
      · exact nofun
      · exact ih h
  simp only [ofToken] at h
  split at h
  case h_1 =>
    obtain rfl := List.mem_singleton.1 h
    exact nofun
  case h_2 c _ _ _ =>
    obtain rfl := List.mem_singleton.1 h
    simp only [ofEscape, escapedClass?]
    by_cases hc : c = '.'
    · simp [hc]
    · rw [if_neg hc]
      cases hk : CharClass.ofLetter? c with
      | none => exact nofun
      | some k =>
        rintro ⟨⟩
        simp only [CharClass.ofLetter?] at hk
        split at hk <;> simp_all
  case h_3 => exact hchars h

namespace Parser

open Pattern (Normal groupDepth groupDepthAll capturesAll)

variable {l : Level} {gs : List OpenGroup} {g : OpenGroup} {s s' : State} {t : Token}
  {p : Pattern} {room maxDepth : Nat}

namespace Level

/-- The captures of everything read at the level, in order. -/
def captured (l : Level) : List Nat :=
  capturesAll (l.branches.reverse ++ l.items.reverse)

/-- What was read is as the grammar says, no more than `room` groups deep. -/
structure Sound (l : Level) (room : Nat) : Prop where
  branch : ∀ p ∈ l.branches, Normal .branch p ∧ p.groupDepth ≤ room
  item : ∀ p ∈ l.items, Normal .item p ∧ p.groupDepth ≤ room

theorem Sound.empty (room : Nat) : Sound {} room := ⟨nofun, nofun⟩

theorem Sound.push (h : l.Sound room) (hp : Normal .item p) (hd : p.groupDepth ≤ room) :
    (l.push p).Sound room :=
  ⟨h.branch, List.forall_mem_cons.2 ⟨⟨hp, hd⟩, h.item⟩⟩

theorem captured_push (l : Level) (p : Pattern) :
    (l.push p).captured = l.captured ++ p.captures := by
  simp [captured, push, Pattern.capturesAll_append, capturesAll]

/-- Another item in place of the last one, with the same captures. -/
theorem captured_replace {q : Pattern} {items : List Pattern} (hitems : l.items = p :: items)
    (hq : q.captures = p.captures) : captured { l with items := q :: items } = l.captured := by
  simp [captured, hitems, Pattern.capturesAll_append, capturesAll, hq]

theorem Sound.endBranch (h : l.Sound room) : l.endBranch.Sound room := by
  refine ⟨List.forall_mem_cons.2 ⟨⟨?_, ?_⟩, h.branch⟩, nofun⟩
  · exact Pattern.normal_ofItems fun p hp => (h.item p (List.mem_reverse.1 hp)).1
  · rw [Pattern.groupDepth_ofItems, Pattern.groupDepthAll_le_iff]
    exact fun p hp => (h.item p (List.mem_reverse.1 hp)).2

theorem captured_endBranch (l : Level) : l.endBranch.captured = l.captured := by
  simp [captured, endBranch, Pattern.capturesAll_append, capturesAll, Pattern.captures_ofItems]

theorem captures_pattern (l : Level) : l.pattern.captures = l.captured := by
  rw [pattern, Pattern.captures_ofBranches, ← captured_endBranch]
  simp [captured, endBranch]

theorem Sound.pattern (h : l.Sound room) :
    Normal .whole l.pattern ∧ l.pattern.groupDepth ≤ room := by
  constructor
  · refine Pattern.normal_ofBranches (by simp [Level.endBranch]) fun p hp => ?_
    exact (h.endBranch.branch p (List.mem_reverse.1 hp)).1
  · rw [Level.pattern, Pattern.groupDepth_ofBranches, Pattern.groupDepthAll_le_iff]
    exact fun p hp => (h.endBranch.branch p (List.mem_reverse.1 hp)).2

end Level

/-- The captures of everything read so far, the innermost group and the level in it last. -/
def captured : List OpenGroup → Level → List Nat
  | [], l => l.captured
  | g :: gs, l => captured gs g.outer ++ g.capture.toList ++ l.captured

/-- What was read around the open groups is as the grammar says. -/
def Around (maxDepth : Nat) : List OpenGroup → Prop
  | [] => True
  | g :: gs => gs.length < maxDepth ∧ g.outer.Sound (maxDepth - gs.length) ∧ Around maxDepth gs

theorem captured_push (gs : List OpenGroup) (l : Level) (p : Pattern) :
    captured gs (l.push p) = captured gs l ++ p.captures := by
  cases gs with
  | nil => exact l.captured_push p
  | cons g gs => simp only [captured, Level.captured_push, List.append_assoc]

theorem captured_congr {l' : Level} (h : l'.captured = l.captured) (gs : List OpenGroup) :
    captured gs l' = captured gs l := by
  cases gs with
  | nil => exact h
  | cons g gs => rw [captured, captured, h]

/-- Where a quantifier may follow, the last item is one that may be repeated. -/
def Operand.Fits : Operand → List Pattern → Prop
  | atom, items => ∃ p rest, items = p :: rest ∧ Normal .atom p
  | none, _ | quantified, _ => True

/-- What holds of the state of a parse between two tokens. -/
structure State.Sound (maxDepth : Nat) (s : State) : Prop where
  level : s.level.Sound (maxDepth - s.groups.length)
  around : Around maxDepth s.groups
  operand : s.operand.Fits s.level.items
  set : ∀ b, s.set = some b → ∀ a ∈ b.atoms, a.kind ≠ .charClass .any
  captured_eq : captured s.groups s.level = List.range' 1 s.captures

namespace State

theorem Sound.init (maxDepth : Nat) : Sound maxDepth {} :=
  ⟨.empty _, trivial, trivial, nofun, rfl⟩

theorem Sound.pushAtom (h : s.Sound maxDepth) (hset : s.set = none) (hp : Normal .atom p)
    (hd : p.groupDepth = 0) (hcap : p.captures = []) : (s.pushAtom p).Sound maxDepth where
  level := h.level.push (.ofAtom hp) (by omega)
  around := h.around
  operand := ⟨p, _, rfl, hp⟩
  set := by simp [State.pushAtom, hset]
  captured_eq := by
    simp only [State.pushAtom, captured_push, hcap, List.append_nil]
    exact h.captured_eq

theorem Sound.pushAnchor (h : s.Sound maxDepth) (hset : s.set = none) (a : Anchor) :
    (s.pushAnchor a).Sound maxDepth where
  level := h.level.push (.anchor a) (Nat.zero_le _)
  around := h.around
  operand := trivial
  set := by simp [State.pushAnchor, hset]
  captured_eq := by
    simp only [State.pushAnchor, captured_push, Pattern.captures, List.append_nil]
    exact h.captured_eq

theorem Sound.escape (h : s.Sound maxDepth) (hset : s.set = none) (c : Char) :
    (s.escape c).Sound maxDepth := by
  unfold State.escape
  split
  · exact h.pushAnchor hset _
  · exact h.pushAnchor hset _
  · split
    · exact h.pushAtom hset (.charClass _) rfl rfl
    · exact h.pushAtom hset (.char _) rfl rfl

theorem Sound.openGroup {capture : Option Nat} {captures : Nat} (h : s.Sound maxDepth)
    (hcap : List.range' 1 s.captures ++ capture.toList = List.range' 1 captures)
    (hs : s.openGroup maxDepth t capture captures = .ok s') : s'.Sound maxDepth := by
  simp only [State.openGroup] at hs
  split at hs
  case isTrue => cases hs
  case isFalse hlt =>
    obtain rfl := Except.ok.inj hs
    refine ⟨.empty _, ⟨by omega, h.level, h.around⟩, trivial, nofun, ?_⟩
    simp only [captured, h.captured_eq, hcap]
    simp [Level.captured, capturesAll]

theorem Sound.closeGroup (h : s.Sound maxDepth) (hset : s.set = none)
    (hs : s.closeGroup t = .ok s') : s'.Sound maxDepth := by
  simp only [State.closeGroup] at hs
  split at hs
  case h_1 => cases hs
  case h_2 g gs hgroups =>
    obtain rfl := Except.ok.inj hs
    obtain ⟨hlt, houter, haround⟩ := hgroups ▸ h.around
    have hlevel := h.level
    rw [hgroups, List.length_cons] at hlevel
    obtain ⟨hnormal, hdepth⟩ := hlevel.pattern
    have hgroup : Normal .atom (.group g.capture s.level.pattern) := .group _ hnormal
    refine ⟨houter.push (.ofAtom hgroup) ?_, haround, ⟨_, _, rfl, hgroup⟩, by simp [hset], ?_⟩
    · rw [groupDepth]
      omega
    · have hcap := h.captured_eq
      rw [hgroups, captured] at hcap
      rw [captured_push, Pattern.captures, Level.captures_pattern, ← List.append_assoc, hcap]

theorem Sound.quantify {times : Except ParseError Repetition} (h : s.Sound maxDepth)
    (hset : s.set = none) (htimes : ∀ r, times = .ok r → r.IsNormal)
    (hs : s.quantify t times = .ok s') : s'.Sound maxDepth := by
  simp only [State.quantify] at hs
  split at hs
  case h_2 => cases hs
  case h_1 body items hop hitems =>
    obtain ⟨r, hr, hs⟩ := exists_of_bind_eq_ok hs
    obtain rfl := Except.ok.inj hs
    obtain ⟨q, rest, heq, hq⟩ := hop ▸ h.operand
    obtain ⟨rfl, rfl⟩ := List.cons.inj (hitems.symm.trans heq)
    obtain ⟨⟨-, hdepth⟩, hrest⟩ := List.forall_mem_cons.1 (hitems ▸ h.level.item)
    refine ⟨⟨h.level.branch, List.forall_mem_cons.2 ⟨⟨?_, hdepth⟩, hrest⟩⟩, h.around,
      trivial, by simp [hset], ?_⟩
    · exact .repeated true hq (htimes r hr)
    · refine (captured_congr (Level.captured_replace hitems ?_) s.groups).trans h.captured_eq
      rw [Pattern.captures]

theorem Sound.question (h : s.Sound maxDepth) (hset : s.set = none)
    (hs : s.question t = .ok s') : s'.Sound maxDepth := by
  simp only [State.question] at hs
  split at hs
  case h_2 => exact h.quantify hset (fun r hr => by cases hr; trivial) hs
  case h_1 body times greedy items hop hitems =>
    obtain rfl := Except.ok.inj hs
    obtain ⟨⟨hnormal, hdepth⟩, hrest⟩ := List.forall_mem_cons.1 (hitems ▸ h.level.item)
    obtain ⟨hbody, htimes⟩ := hnormal.of_repeated
    refine ⟨⟨h.level.branch, List.forall_mem_cons.2 ⟨⟨.repeated _ hbody htimes, hdepth⟩, hrest⟩⟩,
      h.around, trivial, by simp [hset], ?_⟩
    refine (captured_congr (Level.captured_replace hitems ?_) s.groups).trans h.captured_eq
    rw [Pattern.captures, Pattern.captures]

theorem Sound.stepInSet {b : OpenSet} (h : s.Sound maxDepth) (hset : s.set = some b)
    (hs : s.stepInSet b t = .ok s') : s'.Sound maxDepth := by
  have hatoms := h.set b hset
  simp only [State.stepInSet] at hs
  split at hs
  case h_1 =>
    split at hs
    case h_1 items hitems =>
      obtain rfl := Except.ok.inj hs
      have hnormal := SetItem.isNormal_of_ofAtoms
        (fun a ha => hatoms a (List.mem_reverse.1 ha)) hitems
      have hclosed : ({ s with set := none } : State).Sound maxDepth :=
        ⟨h.level, h.around, h.operand, nofun, h.captured_eq⟩
      exact hclosed.pushAtom rfl (.set b.negated hnormal) rfl rfl
    case h_2 => cases hs
  case h_2 => cases hs
  case h_3 =>
    obtain rfl := Except.ok.inj hs
    refine ⟨h.level, h.around, h.operand, ?_, h.captured_eq⟩
    rintro _ ⟨⟩ a ha
    rcases List.mem_append.1 ha with ha | ha
    · exact SetAtom.kind_ne_any (List.mem_reverse.1 ha)
    · exact hatoms a ha

end State

theorem bound_le {digits : List Char} {n : Nat} (h : bound t digits = .ok n) : n ≤ maxBound := by
  simp only [bound] at h
  split at h
  case h_1 m hm =>
    obtain rfl := Except.ok.inj h
    exact Nat.lt_succ_iff.1 (Text.lt_of_unsigned?_eq_some hm)
  case h_2 => cases h

/-- The bounds of a count that was read are in order and not too large. -/
theorem isNormal_of_count {r : Repetition} (h : count t = .ok r) : r.IsNormal := by
  simp only [count] at h
  split at h
  · obtain ⟨n, hn, h⟩ := exists_of_bind_eq_ok h
    obtain rfl := Except.ok.inj h
    exact ⟨Nat.le_refl _, bound_le hn⟩
  · obtain ⟨n, hn, h⟩ := exists_of_bind_eq_ok h
    obtain rfl := Except.ok.inj h
    exact bound_le hn
  · obtain ⟨min, hmin, h⟩ := exists_of_bind_eq_ok h
    obtain ⟨max, hmax, h⟩ := exists_of_bind_eq_ok h
    split at h
    · cases h
    · obtain rfl := Except.ok.inj h
      exact ⟨by omega, bound_le hmax⟩

namespace State

theorem Sound.stepOutside (h : s.Sound maxDepth) (hset : s.set = none)
    (hs : s.stepOutside maxDepth t = .ok s') : s'.Sound maxDepth := by
  unfold State.stepOutside at hs
  split at hs
  case h_1 => exact h.openGroup (by simp [List.range'_concat, Nat.add_comm]) hs
  case h_2 => exact h.openGroup (by simp) hs
  case h_3 => exact h.closeGroup hset hs
  case h_4 | h_5 =>
    obtain rfl := Except.ok.inj hs
    refine ⟨h.level, h.around, h.operand, ?_, h.captured_eq⟩
    rintro _ ⟨⟩ a ha
    cases ha
  case h_6 =>
    obtain rfl := Except.ok.inj hs
    exact ⟨h.level.endBranch, h.around, trivial, by simp [hset],
      (captured_congr (Level.captured_endBranch _) _).trans h.captured_eq⟩
  case h_7 | h_8 => exact h.quantify hset (fun r hr => by cases hr; trivial) hs
  case h_9 => exact h.question hset hs
  case h_10 => exact h.quantify hset (fun r => isNormal_of_count) hs
  case h_11 | h_12 =>
    obtain rfl := Except.ok.inj hs
    exact h.pushAnchor hset _
  case h_13 =>
    obtain rfl := Except.ok.inj hs
    exact h.pushAtom hset (.charClass _) rfl rfl
  case h_14 =>
    obtain rfl := Except.ok.inj hs
    exact h.escape hset _
  case h_15 | h_16 | h_17 =>
    obtain rfl := Except.ok.inj hs
    exact h.pushAtom hset (.char _) rfl rfl
  case h_18 => cases hs

/-- A token keeps the state sound. -/
theorem Sound.step (h : s.Sound maxDepth) (hs : step maxDepth s t = .ok s') :
    s'.Sound maxDepth := by
  simp only [Parser.step] at hs
  split at hs
  · exact h.stepInSet ‹_› hs
  · exact h.stepOutside ‹_› hs

theorem Sound.foldlM {ts : List Token} (h : s.Sound maxDepth)
    (hs : ts.foldlM (Parser.step maxDepth) s = .ok s') : s'.Sound maxDepth :=
  foldlM_invariant (fun next => next.Sound maxDepth) (fun _ _ _ => Sound.step) h hs

end State

/-- A parse ends where no group is open, with what was read outside groups. -/
theorem finish_eq_ok (h : finish s = .ok p) : s.groups = [] ∧ p = s.level.pattern := by
  unfold finish at h
  split at h
  case h_1 => cases h
  case h_2 => cases h
  case h_3 _ hgroups => exact ⟨hgroups, (Except.ok.inj h).symm⟩

theorem exists_of_parse {source : String} (h : Pattern.parse source maxDepth = .ok p) :
    ∃ s, (Token.ofSource source).foldlM (step maxDepth) {} = .ok s ∧ s.groups = [] ∧
      p = s.level.pattern := by
  obtain ⟨s, hs, h⟩ := exists_of_bind_eq_ok h
  exact ⟨s, hs, finish_eq_ok h⟩

/-- What was parsed has the form that the grammar gives it, and no more groups inside each other
than are allowed. -/
theorem isNormal_of_parse {source : String} (h : Pattern.parse source maxDepth = .ok p) :
    p.IsNormal ∧ p.groupDepth ≤ maxDepth := by
  obtain ⟨s, hs, hgroups, rfl⟩ := exists_of_parse h
  have hsound : s.Sound maxDepth := (State.Sound.init maxDepth).foldlM hs
  have hlevel := hsound.level
  rw [hgroups, List.length_nil, Nat.sub_zero] at hlevel
  obtain ⟨hnormal, hdepth⟩ := hlevel.pattern
  have hcap := hsound.captured_eq
  rw [hgroups, captured, ← Level.captures_pattern] at hcap
  refine ⟨⟨hnormal, ?_⟩, hdepth⟩
  rw [hcap, List.length_range']

end Parser

end PatternAutomata
