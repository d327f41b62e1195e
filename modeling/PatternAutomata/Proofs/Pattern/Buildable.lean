import PatternAutomata.Proofs.Pattern.Combinators
import PatternAutomata.Proofs.Pattern.Written

/-!
# Which patterns have an automaton

A pattern is checked while its automaton is built, but for what stands in a repetition that is made
no times. If nothing is wrong with it, only the number of states can stop the construction. So it
is for every pattern that was parsed.

## Main definitions

* `Pattern.Buildable` — nothing is wrong with the parts of a pattern that are built.
* `Fragment.Unfailing` — only the number of states stops the construction.

## Main statements

* `Pattern.Buildable.unfailing` — nothing else stops the construction of such a pattern.
* `Pattern.build_of_parse` — what was parsed has an automaton or needs too many states.
-/
namespace PatternAutomata

/-- The member has slots of its own for its ends, which are in order. -/
def SetItem.IsOrdered : SetItem → Prop
  | char c => isAscii c = true
  | range lo hi => isAscii lo = true ∧ isAscii hi = true ∧ lo ≤ hi
  | charClass _ => True

/-- The bounds of a count are in order. -/
def Repetition.IsOrdered : Repetition → Prop
  | counted min (some max) => min ≤ max
  | _ => True

/-- Nothing is wrong with the parts of the pattern that are built; a body that is made no times is
not among them. -/
inductive Pattern.Buildable : Pattern → Prop
  | alternation {branches : List Pattern} : branches ≠ [] → (∀ p ∈ branches, Buildable p) →
      Buildable (.alternation branches)
  | sequence {items : List Pattern} : (∀ p ∈ items, Buildable p) → Buildable (.sequence items)
  | repeated {body : Pattern} {times : Repetition} (greedy : Bool) : times.IsOrdered →
      (times ≠ .counted 0 (some 0) → Buildable body) → Buildable (.repeated body times greedy)
  | group (capture : Option Nat) {body : Pattern} : Buildable body →
      Buildable (.group capture body)
  | anchor (a : Anchor) : Buildable (.anchor a)
  | char (c : Char) : Buildable (.char c)
  | charClass (k : CharClass) : Buildable (.charClass k)
  | set (negated : Bool) {items : List SetItem} : (∀ i ∈ items, i.IsOrdered) →
      Buildable (.set negated items)

theorem SetItem.exists_addTo {item : SetItem} (h : item.IsOrdered) (s : CharSet) :
    ∃ t, item.addTo s = .ok t := by
  cases item with
  | char c =>
    have hc : isAscii c = true := h
    exact ⟨_, by rw [addTo, CharSet.toggle?, if_pos hc]⟩
  | range lo hi =>
    obtain ⟨hlo, hhi, hle⟩ := h
    exact ⟨_, by rw [addTo, if_neg (Char.not_lt.2 hle), CharSet.toggleRange?, hlo, hhi]; rfl⟩
  | charClass k => exact ⟨_, rfl⟩

theorem SetItem.exists_foldlM_addTo {items : List SetItem} (h : ∀ i ∈ items, i.IsOrdered)
    (s : CharSet) : ∃ t, items.foldlM addTo s = .ok t := by
  induction items generalizing s with
  | nil => exact ⟨s, rfl⟩
  | cons item items ih =>
    obtain ⟨hitem, hitems⟩ := List.forall_mem_cons.1 h
    obtain ⟨t, ht⟩ := exists_addTo hitem s
    obtain ⟨u, hu⟩ := ih hitems t
    exact ⟨u, by rw [List.foldlM_cons, ht]; exact hu⟩

namespace Fragment

/-- Nothing but the number of states stops the construction. -/
def Unfailing (part : Fragment) : Prop :=
  ∀ ⦃entry : Nat⦄ ⦃a : Automaton⦄ ⦃e : BuildError⦄, part entry a = .error e →
    e = .tooManyStates maxStates

variable {part : Fragment} {parts : List Fragment}

theorem unfailing_edge (label : Label) : (edge label).Unfailing := nofun

theorem unfailing_set (negated : Bool) {items : List SetItem} (h : ∀ i ∈ items, i.IsOrdered) :
    (set negated items).Unfailing := fun entry a e he => by
  obtain ⟨t, ht⟩ := SetItem.exists_foldlM_addTo h { negated }
  rw [set, ht] at he
  cases he

theorem unfailing_sequence (h : ∀ part ∈ parts, part.Unfailing) : (sequence parts).Unfailing := by
  induction parts with
  | nil => exact nofun
  | cons part parts ih =>
    obtain ⟨hpart, hparts⟩ := List.forall_mem_cons.1 h
    intro entry a e he
    rcases error_of_bind_eq_error he with he | ⟨_, -, he⟩
    · exact hpart he
    · exact ih hparts he

theorem unfailing_fan (h : ∀ part ∈ parts, part.Unfailing) {entry : Nat} {a : Automaton}
    {e : BuildError} (he : fan parts entry a = .error e) : e = .tooManyStates maxStates := by
  induction parts generalizing a with
  | nil => cases he
  | cons part parts ih =>
    obtain ⟨hpart, hparts⟩ := List.forall_mem_cons.1 h
    rw [fan_cons_eq] at he
    rcases error_of_bind_eq_error he with he | ⟨_, -, he⟩
    · exact hpart he
    · rcases error_of_bind_eq_error he with he | ⟨_, -, he⟩
      · exact ih hparts he
      · cases he

theorem unfailing_alternation (hne : parts ≠ []) (h : ∀ part ∈ parts, part.Unfailing) :
    (alternation parts).Unfailing := fun entry a e he => by
  obtain ⟨part, parts, rfl⟩ := List.exists_cons_of_ne_nil hne
  rw [alternation_cons_eq] at he
  rcases error_of_bind_eq_error he with he | ⟨_, -, he⟩
  · exact unfailing_fan h he
  · cases he

theorem unfailing_block (h : part.Unfailing) (shape : Shape) (greedy : Bool) :
    (block part shape greedy).Unfailing := fun entry a e he => by
  rw [block_eq] at he
  rcases error_of_bind_eq_error he with he | ⟨_, -, he⟩
  · exact h he
  · cases he

theorem unfailing_copies (h : part.Unfailing) (n : Nat) : (copies part n).Unfailing := by
  induction n with
  | zero => exact nofun
  | succ n ih =>
    intro entry a e he
    rcases error_of_bind_eq_error he with he | ⟨_, -, he⟩
    · exact h he
    · simp only at he
      split at he
      · exact (Except.error.inj he).symm
      · exact ih he

/-- Where no copy is made, the part itself does not matter. -/
theorem unfailing_counted {min : Nat} {max : Option Nat} (greedy : Bool)
    (hmax : (Repetition.counted min max).IsOrdered)
    (h : Repetition.counted min max ≠ .counted 0 (some 0) → part.Unfailing) :
    (counted part min max greedy).Unfailing := fun entry a e he => by
  cases max with
  | none =>
    have hpart := h nofun
    rcases error_of_bind_eq_error he with he | ⟨_, -, he⟩
    · exact unfailing_copies hpart min he
    · exact unfailing_block hpart _ greedy he
  | some max =>
    have hle : min ≤ max := hmax
    simp only [counted, if_neg (Nat.not_lt.2 hle)] at he
    by_cases hzero : max = 0
    · obtain rfl := hzero
      obtain rfl := Nat.le_zero.1 hle
      cases he
    · have hpart := h (by simp [hzero])
      rcases error_of_bind_eq_error he with he | ⟨_, -, he⟩
      · exact unfailing_copies hpart min he
      · exact unfailing_copies (unfailing_block hpart _ greedy) _ he

theorem unfailing_repeated {times : Repetition} (greedy : Bool) (htimes : times.IsOrdered)
    (h : times ≠ .counted 0 (some 0) → part.Unfailing) :
    (repeated part times greedy).Unfailing := by
  cases times with
  | optional | star | plus => exact unfailing_block (h nofun) _ greedy
  | counted min max => exact unfailing_counted greedy htimes h

theorem unfailing_capture (h : part.Unfailing) (index : Nat) : (capture index part).Unfailing :=
  fun entry a e he => by
    rw [capture_eq] at he
    rcases error_of_bind_eq_error he with he | ⟨_, -, he⟩
    · exact h he
    · cases he

end Fragment

namespace Pattern

variable {p : Pattern} {place : Place} {flags : Flags} {source : String} {maxDepth : Nat}

theorem mem_fragments {ps : List Pattern} {part : Fragment} :
    part ∈ fragments ps ↔ ∃ p ∈ ps, p.fragment = part := by
  induction ps with
  | nil => simp [fragments]
  | cons p ps ih => simp [fragments, ih, eq_comm]

/-- Only the number of states stops the construction of a buildable pattern. -/
theorem Buildable.unfailing (h : p.Buildable) : p.fragment.Unfailing := by
  have hparts {ps : List Pattern} (ih : ∀ p ∈ ps, p.fragment.Unfailing) :
      ∀ part ∈ fragments ps, part.Unfailing := by
    intro part hpart
    obtain ⟨p, hp, rfl⟩ := mem_fragments.1 hpart
    exact ih p hp
  induction h with
  | @alternation branches hne _ ih =>
    have hne' : fragments branches ≠ [] := by
      cases branches with
      | nil => exact absurd rfl hne
      | cons p ps => exact List.cons_ne_nil _ _
    exact Fragment.unfailing_alternation hne' (hparts ih)
  | sequence _ ih => exact Fragment.unfailing_sequence (hparts ih)
  | repeated greedy htimes _ ih => exact Fragment.unfailing_repeated greedy htimes ih
  | group capture _ ih =>
    cases capture with
    | none => exact ih
    | some index => exact Fragment.unfailing_capture ih index
  | anchor | char | charClass => exact Fragment.unfailing_edge _
  | set negated hitems => exact Fragment.unfailing_set negated hitems

/-- A buildable pattern without a group 0 has an automaton, or it needs too many states. -/
theorem build_of_buildable (h : p.Buildable) (hzero : 0 ∉ p.captures) :
    (∃ a, p.build flags = .ok a) ∨
      p.build flags = .error (.tooManyStates Fragment.maxStates) := by
  cases hb : p.build flags with
  | ok a => exact .inl ⟨a, rfl⟩
  | error e =>
    rw [build, if_neg (by simpa using hzero)] at hb
    rcases error_of_bind_eq_error hb with hb | ⟨_, -, hb⟩
    · exact .inr (by rw [h.unfailing hb])
    · cases hb

theorem Normal.buildable (h : Normal place p) : p.Buildable := by
  induction h with
  | char c => exact .char c
  | charClass k => exact .charClass k
  | set negated hitems =>
    refine .set negated fun i hi => ?_
    have hi := hitems i hi
    cases i with
    | char | range => exact hi
    | charClass => trivial
  | group capture _ ih => exact .group capture ih
  | ofAtom _ ih | ofItem _ ih | ofBranch _ ih => exact ih
  | anchor a => exact .anchor a
  | @repeated body times greedy _ htimes ih =>
    refine .repeated greedy ?_ fun _ => ih
    cases times with
    | optional | star | plus => trivial
    | counted min max =>
      cases max with
      | none => trivial
      | some max => exact htimes.1
  | sequence _ _ ih => exact .sequence ih
  | alternation hlen _ ih =>
    refine .alternation ?_ ih
    rintro rfl
    simp at hlen

/-- What was parsed has an automaton, or it needs too many states. -/
theorem build_of_parse (h : parse source maxDepth = .ok p) (flags : Flags) :
    (∃ a, p.build flags = .ok a) ∨
      p.build flags = .error (.tooManyStates Fragment.maxStates) := by
  obtain ⟨hp, -⟩ := Parser.isNormal_of_parse h
  refine build_of_buildable hp.normal.buildable ?_
  rw [hp.captures_eq]
  simp

theorem build_of_parse_punctuated :
    parse punctuated.written 1 = .ok punctuated ∧
      ((∃ a, punctuated.build {} = .ok a) ∨
        punctuated.build {} = .error (.tooManyStates Fragment.maxStates)) :=
  have hparse := parse_written isNormal_punctuated (by decide)
  ⟨hparse, build_of_parse hparse {}⟩

end Pattern

end PatternAutomata
