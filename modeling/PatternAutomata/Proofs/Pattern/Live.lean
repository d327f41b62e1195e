import PatternAutomata.Proofs.Pattern.Buildable
import PatternAutomata.Proofs.Pattern.Captures

/-!
# What is wrong with a pattern that is not built

The body of a repetition that is made no times is never built, so nothing is asked of it but that
its groups are not numbered 0. All other parts of a pattern are live. A pattern is built only if
each of its live parts is sound by itself, and if they all are, only the number of states can stop
the construction.

## Main definitions

* `Pattern.liveParts` — the parts of a pattern that are built.
* `Pattern.IsSound` — nothing is wrong with the node at the top of a pattern.

## Main statements

* `Pattern.requires_fragment` — a fragment that is built belongs to a buildable pattern.
* `Pattern.buildable_iff` — a pattern is buildable just when its live parts are sound.
* `Pattern.build_reports` — which patterns are built, and which errors are reported.
-/
namespace PatternAutomata

theorem SetItem.isOrdered_of_addTo {item : SetItem} {s t : CharSet} (h : item.addTo s = .ok t) :
    item.IsOrdered := by
  cases item with
  | char c =>
    by_contra hc
    have hc : isAscii c = false := Bool.eq_false_iff.2 hc
    rw [addTo, CharSet.toggle?, hc] at h
    cases h
  | range lo hi =>
    rw [addTo] at h
    split at h
    case isTrue => cases h
    case isFalse hle =>
      cases hascii : isAscii lo && isAscii hi with
      | true =>
        obtain ⟨hlo, hhi⟩ := Bool.and_eq_true_iff.1 hascii
        exact ⟨hlo, hhi, Char.not_lt.1 hle⟩
      | false =>
        rw [CharSet.toggleRange?, hascii] at h
        cases h
  | charClass k => trivial

theorem SetItem.isOrdered_of_foldlM_addTo {items : List SetItem} {s t : CharSet}
    (h : items.foldlM addTo s = .ok t) : ∀ i ∈ items, i.IsOrdered := by
  induction items generalizing s with
  | nil => exact nofun
  | cons item items ih =>
    obtain ⟨u, hu, h⟩ := exists_of_foldlM_cons_eq_ok h
    exact List.forall_mem_cons.2 ⟨isOrdered_of_addTo hu, ih h⟩

namespace Fragment

/-- The fragment is built only if `P` holds. -/
def Requires (part : Fragment) (P : Prop) : Prop :=
  ∀ ⦃entry : Nat⦄ ⦃a : Automaton⦄ ⦃exit : Nat⦄ ⦃a' : Automaton⦄,
    part entry a = .ok (exit, a') → P

variable {part : Fragment} {P Q : Prop}

theorem Requires.imp (h : part.Requires P) (hPQ : P → Q) : part.Requires Q :=
  fun _ _ _ _ heq => hPQ (h heq)

theorem requires_set (negated : Bool) (items : List SetItem) :
    (set negated items).Requires (∀ i ∈ items, i.IsOrdered) := fun entry a exit a' heq => by
  obtain ⟨s, hs, -⟩ := set_eq_ok heq
  exact SetItem.isOrdered_of_foldlM_addTo hs

theorem requires_block (h : part.Requires P) (shape : Shape) (greedy : Bool) :
    (block part shape greedy).Requires P := fun entry a exit a' heq => by
  obtain ⟨outer, a₁, h₁, -⟩ := block_eq_ok heq
  exact h h₁

theorem requires_copies (h : part.Requires P) {n : Nat} (hn : n ≠ 0) :
    (copies part n).Requires P := fun entry a exit a' heq => by
  obtain ⟨n, rfl⟩ := Nat.exists_eq_succ_of_ne_zero hn
  obtain ⟨mid, a₁, h₁, -⟩ := copies_succ_eq_ok heq
  exact h h₁

/-- A part that is made at least once is built at least once. -/
theorem requires_repeated (h : part.Requires P) (times : Repetition) (greedy : Bool) :
    (repeated part times greedy).Requires
      (times.IsOrdered ∧ (times ≠ .counted 0 (some 0) → P)) := by
  rcases times with _ | _ | _ | ⟨min, _ | max⟩
  · exact (requires_block h _ greedy).imp fun hP => ⟨trivial, fun _ => hP⟩
  · exact (requires_block h _ greedy).imp fun hP => ⟨trivial, fun _ => hP⟩
  · exact (requires_block h _ greedy).imp fun hP => ⟨trivial, fun _ => hP⟩
  · intro entry a exit a' heq
    obtain ⟨mid, a₁, -, h₂⟩ := andThen_eq_ok heq
    exact ⟨trivial, fun _ => requires_block h _ greedy h₂⟩
  · intro entry a exit a' heq
    obtain ⟨hle, heq⟩ := counted_some_eq_ok heq
    refine ⟨hle, fun hne => ?_⟩
    obtain ⟨mid, a₁, h₁, h₂⟩ := andThen_eq_ok heq
    by_cases hmin : min = 0
    · have hmax : max - min ≠ 0 := fun hmax => hne (by simp; omega)
      exact requires_copies (requires_block h _ greedy) hmax h₂
    · exact requires_copies h hmin h₁

theorem requires_capture (h : part.Requires P) (index : Nat) :
    (capture index part).Requires P := fun entry a exit a' heq => by
  obtain ⟨last, a₁, h₁, -⟩ := capture_eq_ok heq
  exact h h₁

end Fragment

namespace Pattern

mutual

/-- The pattern and all patterns in it that are built: the body of a repetition that is made no
times is left out. -/
def liveParts : Pattern → List Pattern
  | alternation branches => alternation branches :: livePartsAll branches
  | sequence items => sequence items :: livePartsAll items
  | repeated body times greedy =>
    repeated body times greedy :: if times = .counted 0 (some 0) then [] else body.liveParts
  | group capture body => group capture body :: body.liveParts
  | anchor a => [anchor a]
  | char c => [char c]
  | charClass k => [charClass k]
  | set negated items => [set negated items]

def livePartsAll : List Pattern → List Pattern
  | [] => []
  | p :: rest => p.liveParts ++ livePartsAll rest

end

/-- An alternation has a branch, the bounds of a count are in order, and the members of a set are
ASCII and in order. -/
def IsSound : Pattern → Prop
  | alternation branches => branches ≠ []
  | repeated _ times _ => times.IsOrdered
  | set _ items => ∀ i ∈ items, i.IsOrdered
  | sequence _ | group _ _ | anchor _ | char _ | charClass _ => True

variable {p q : Pattern} {ps : List Pattern} {flags : Flags}

theorem mem_livePartsAll : q ∈ livePartsAll ps ↔ ∃ p ∈ ps, q ∈ p.liveParts := by
  induction ps with
  | nil => simp [livePartsAll]
  | cons p ps ih => simp [livePartsAll, ih]

theorem requires_fragments (h : ∀ p ∈ ps, p.fragment.Requires p.Buildable) :
    (Fragment.sequence (fragments ps)).Requires (∀ p ∈ ps, p.Buildable) := by
  induction ps with
  | nil => exact fun _ _ _ _ _ => nofun
  | cons p ps ih =>
    obtain ⟨hp, hps⟩ := List.forall_mem_cons.1 h
    intro entry a exit a' heq
    obtain ⟨mid, a₁, h₁, h₂⟩ := Fragment.andThen_eq_ok heq
    exact List.forall_mem_cons.2 ⟨hp h₁, ih hps h₂⟩

theorem buildable_of_fan (h : ∀ p ∈ ps, p.fragment.Requires p.Buildable) {entry : Nat}
    {a : Automaton} {exits : List Nat} {a' : Automaton}
    (heq : Fragment.fan (fragments ps) entry a = .ok (exits, a')) : ∀ p ∈ ps, p.Buildable := by
  induction ps generalizing a exits a' with
  | nil => exact nofun
  | cons p ps ih =>
    obtain ⟨hp, hps⟩ := List.forall_mem_cons.1 h
    obtain ⟨first, a₁, others, h₁, h₂, -⟩ := Fragment.fan_cons_eq_ok heq
    exact List.forall_mem_cons.2 ⟨hp h₁, ih hps h₂⟩

/-- Only a buildable pattern is built, be it a part of another one or not. -/
theorem requires_fragment (p : Pattern) : p.fragment.Requires p.Buildable := by
  induction p using induct with
  | alternation branches ih =>
    rw [fragment]
    intro entry a exit a' heq
    obtain ⟨hne, exits, a₁, h₁, -⟩ := Fragment.alternation_eq_ok heq
    have hbranches : branches ≠ [] := fun hnil => hne (by rw [hnil, fragments])
    exact .alternation hbranches (buildable_of_fan ih h₁)
  | sequence items ih =>
    rw [fragment]
    exact (requires_fragments ih).imp .sequence
  | repeated body times greedy ih =>
    rw [fragment]
    exact (Fragment.requires_repeated ih times greedy).imp fun h => .repeated greedy h.1 h.2
  | group capture body ih =>
    cases capture with
    | none =>
      rw [fragment]
      exact ih.imp (.group none)
    | some index =>
      rw [fragment]
      exact (Fragment.requires_capture ih index).imp (.group (some index))
  | anchor a => exact fun _ _ _ _ _ => .anchor a
  | char c => exact fun _ _ _ _ _ => .char c
  | charClass k => exact fun _ _ _ _ _ => .charClass k
  | set negated items =>
    rw [fragment]
    exact (Fragment.requires_set negated items).imp (.set negated)

theorem Buildable.isSound (h : p.Buildable) : ∀ q ∈ p.liveParts, q.IsSound := by
  have hall {ps : List Pattern} (ih : ∀ p ∈ ps, ∀ q ∈ p.liveParts, q.IsSound) :
      ∀ q ∈ livePartsAll ps, q.IsSound := by
    intro q hq
    obtain ⟨p, hp, hq⟩ := mem_livePartsAll.1 hq
    exact ih p hp q hq
  induction h with
  | alternation hne _ ih => exact List.forall_mem_cons.2 ⟨hne, hall ih⟩
  | sequence _ ih => exact List.forall_mem_cons.2 ⟨trivial, hall ih⟩
  | repeated greedy htimes _ ih =>
    refine List.forall_mem_cons.2 ⟨htimes, ?_⟩
    split
    · exact nofun
    · rename_i hne
      exact ih hne
  | group capture _ ih => exact List.forall_mem_cons.2 ⟨trivial, ih⟩
  | anchor | char | charClass => exact List.forall_mem_singleton.2 trivial
  | set negated hitems => exact List.forall_mem_singleton.2 hitems

theorem buildable_of_isSound (h : ∀ q ∈ p.liveParts, q.IsSound) : p.Buildable := by
  have hall {ps : List Pattern} (ih : ∀ p ∈ ps, (∀ q ∈ p.liveParts, q.IsSound) → p.Buildable)
      (h : ∀ q ∈ livePartsAll ps, q.IsSound) : ∀ p ∈ ps, p.Buildable :=
    fun p hp => ih p hp fun q hq => h q (mem_livePartsAll.2 ⟨p, hp, hq⟩)
  induction p using induct with
  | alternation branches ih =>
    obtain ⟨hne, h⟩ := List.forall_mem_cons.1 h
    exact .alternation hne (hall ih h)
  | sequence items ih => exact .sequence (hall ih (List.forall_mem_cons.1 h).2)
  | repeated body times greedy ih =>
    obtain ⟨htimes, h⟩ := List.forall_mem_cons.1 h
    refine .repeated greedy htimes fun hne => ih ?_
    rwa [if_neg hne] at h
  | group capture body ih => exact .group capture (ih (List.forall_mem_cons.1 h).2)
  | anchor a => exact .anchor a
  | char c => exact .char c
  | charClass k => exact .charClass k
  | set negated items => exact .set negated (List.forall_mem_singleton.1 h)

/-- Nothing is wrong with the parts that are built just when each live part is sound by itself. -/
theorem buildable_iff : p.Buildable ↔ ∀ q ∈ p.liveParts, q.IsSound :=
  ⟨Buildable.isSound, buildable_of_isSound⟩

/-- The capture indices are those of the groups among the parts, live or not. -/
theorem mem_captures_iff {index : Nat} :
    index ∈ p.captures ↔ ∃ body, group (some index) body ∈ p.parts := by
  have hall {ps : List Pattern}
      (ih : ∀ p ∈ ps, (index ∈ p.captures ↔ ∃ body, group (some index) body ∈ p.parts)) :
      index ∈ capturesAll ps ↔ ∃ body, group (some index) body ∈ partsAll ps := by
    simp only [mem_capturesAll, mem_partsAll]
    grind
  induction p using induct with
  | alternation branches ih =>
    simp only [captures, parts, List.mem_cons, reduceCtorEq, false_or, hall ih]
  | sequence items ih =>
    simp only [captures, parts, List.mem_cons, reduceCtorEq, false_or, hall ih]
  | repeated body times greedy ih =>
    simp only [captures, parts, List.mem_cons, reduceCtorEq, false_or, ih]
  | group capture body ih =>
    simp only [captures, parts, List.mem_cons, List.mem_append, Option.mem_toList, group.injEq, ih]
    grind
  | anchor | char | charClass | set => simp [captures, parts]

/-- A group 0 anywhere is reported before all else. Otherwise a pattern that is built has sound
live parts, and one that has them is built or needs too many states. -/
theorem build_reports (p : Pattern) (flags : Flags) :
    ((∃ body, group (some 0) body ∈ p.parts) → p.build flags = .error .zeroGroupIndex) ∧
    (∀ a, p.build flags = .ok a →
      (∀ body, group (some 0) body ∉ p.parts) ∧ ∀ q ∈ p.liveParts, q.IsSound) ∧
    ((∀ body, group (some 0) body ∉ p.parts) → (∀ q ∈ p.liveParts, q.IsSound) →
      (∃ a, p.build flags = .ok a) ∨
        p.build flags = .error (.tooManyStates Fragment.maxStates)) := by
  refine ⟨fun h => ?zero, fun a hb => ?built, fun hzero hsound => ?sound⟩
  case zero =>
    have hzero : p.captures.contains 0 = true := List.contains_iff_mem.2 (mem_captures_iff.2 h)
    rw [build, if_pos hzero]
  case built =>
    obtain ⟨hzero, exit, a', hfragment, -⟩ := build_eq_ok_iff.1 hb
    exact ⟨fun body hbody => hzero (mem_captures_iff.2 ⟨body, hbody⟩),
      buildable_iff.1 (p.requires_fragment hfragment)⟩
  case sound =>
    refine build_of_buildable (buildable_iff.2 hsound) fun hmem => ?_
    obtain ⟨body, hbody⟩ := mem_captures_iff.1 hmem
    exact hzero body hbody

end Pattern

end PatternAutomata
