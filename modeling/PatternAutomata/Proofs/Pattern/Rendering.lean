import PatternAutomata.Proofs.Pattern.Backtracking
import PatternAutomata.Proofs.Pattern.Size
import PatternAutomata.Proofs.Region.Passage

/-!
# Regions of patterns

The region that is built for a pattern has the shape of the pattern, with every counted repetition
written out. So a statement about what is built is proved by induction on the shape.

## Main definitions

* `Pattern.Renders` — a region has the shape of a pattern.
* `Automaton.IsRegion` — an automaton is a region between state 0 and its final state.

## Main statement

* `Pattern.renders_of_build` — the automaton of a pattern is such a region.
-/
namespace PatternAutomata

/-- The extra edges of a block for a repetition, unless that is counted. -/
def Repetition.shape? : Repetition → Option Fragment.Shape
  | optional => some ⟨true, false⟩
  | star => some ⟨true, true⟩
  | plus => some ⟨false, true⟩
  | counted _ _ => none

/-- Only a repetition without an upper bound goes back to its start. -/
theorem Repetition.isUnbounded_of_again {times : Repetition} {shape : Fragment.Shape}
    (ht : times.shape? = some shape) (hagain : shape.again = true) : times.isUnbounded = true := by
  cases times with
  | optional =>
    rw [← Option.some.inj ht] at hagain
    cases hagain
  | star | plus => rfl
  | counted => cases ht

/-- Of the repetitions that are not counted, only `+` has a round that cannot be left out. -/
theorem Repetition.eq_plus_of_skip {times : Repetition} {shape : Fragment.Shape}
    (ht : times.shape? = some shape) (hskip : shape.skip = false) : times = .plus := by
  cases times with
  | optional | star =>
    rw [← Option.some.inj ht] at hskip
    cases hskip
  | plus => rfl
  | counted => cases ht

/-- The region has the shape of the pattern. -/
inductive Pattern.Renders : Pattern → Region → Prop
  | anchor {a : Anchor} {target : Nat} : Renders (.anchor a) (.edge (.epsilon (some a)) target)
  | char {c : Char} {target : Nat} : Renders (.char c) (.edge (.char c) target)
  | charClass {k : CharClass} {target : Nat} : Renders (.charClass k) (.edge (.charClass k) target)
  | set {negated : Bool} {items : List SetItem} {s : CharSet} {target : Nat} :
      items.foldlM SetItem.addTo { negated } = .ok s →
      Renders (.set negated items) (.edge (.set s) target)
  | nil : Renders (.sequence []) .empty
  | cons {p : Pattern} {rest : List Pattern} {r r' : Region} :
      Renders p r → Renders (.sequence rest) r' → Renders (.sequence (p :: rest)) (.seq r r')
  | alternation {branches : List Pattern} {start : Nat → Nat} {part : Nat → Region} {join : Nat} :
      (∀ i (h : i < branches.length), Renders branches[i] (part i)) →
      Renders (.alternation branches) (.alt branches.length start part join)
  | block {body : Pattern} {times : Repetition} {b : Block} {r : Region} :
      times.shape? = some b.shape → Renders body r →
      Renders (.repeated body times b.greedy) (.block b r)
  | counted {body : Pattern} {min : Nat} {max : Option Nat} {greedy : Bool} {r : Region} :
      (∀ m, max = some m → min ≤ m) → Renders (.sequence (body.unrolled min max greedy)) r →
      Renders (.repeated body (.counted min max) greedy) r
  | group {body : Pattern} {r : Region} : Renders body r → Renders (.group none body) r
  | capture {index first last : Nat} {body : Pattern} {r : Region} :
      Renders body r → Renders (.group (some index) body) (.capture index first last r)

namespace Fragment

/-- What the fragment builds are regions of the form `Q`, as long as there are few enough states
for each to have an id of its own. -/
def Lays (part : Fragment) (Q : Region → Prop) : Prop :=
  ∀ ⦃entry : Nat⦄ ⦃a : Automaton⦄ ⦃exit : Nat⦄ ⦃a' : Automaton⦄,
    part entry a = .ok (exit, a') → entry < a.stateCount → a.edgesOf entry = [] →
      a'.stateCount < 2 ^ 32 → ∃ r, Q r ∧ Laid r entry a exit a'

variable {part rest : Fragment} {Q Q' : Region → Prop} {k : Nat}

theorem Lays.imp (h : part.Lays Q) (hQ : ∀ r, Q r → Q' r) : part.Lays Q' := by
  intro entry a exit a' heq he ho hw
  obtain ⟨r, hr, hlaid⟩ := h heq he ho hw
  exact ⟨r, hQ r hr, hlaid⟩

theorem lays_edge {label : Label} (hQ : ∀ target, Q (.edge label target)) :
    (edge label).Lays Q := by
  intro entry a exit a' heq he ho hw
  obtain ⟨rfl, rfl⟩ := edge_eq_ok heq
  rw [Automaton.stateCount_addEdge, Automaton.stateCount_addState] at hw
  rw [Automaton.addState_fst (by omega)]
  exact ⟨_, hQ _, Laid.edge he ho label⟩

theorem Lays.andThen (h : part.Lays Q) (h' : rest.Lays Q') (hg : rest.Grows k) :
    (part.andThen rest).Lays fun r => ∃ r₁ r₂, Q r₁ ∧ Q' r₂ ∧ r = .seq r₁ r₂ := by
  intro entry a exit a' heq he ho hw
  obtain ⟨mid, a₁, h₁, h₂⟩ := andThen_eq_ok heq
  have hle := (hg h₂).1
  obtain ⟨r₁, hr₁, hlaid₁⟩ := h h₁ he ho (by omega)
  obtain ⟨r₂, hr₂, hlaid₂⟩ := h' h₂ (hlaid₁.exit_lt he) hlaid₁.open_exit hw
  exact ⟨_, ⟨r₁, r₂, hr₁, hr₂, rfl⟩, hlaid₁.seq he hlaid₂⟩

theorem Lays.capture (h : part.Lays Q) (hg : part.Grows k) (index : Nat) :
    (capture index part).Lays fun r =>
      ∃ first last r', Q r' ∧ r = .capture index first last r' := by
  intro entry a exit a' heq he ho hw
  obtain ⟨last, a₁, h₁, rfl, rfl⟩ := capture_eq_ok heq
  have hle := (hg h₁).1
  simp only [Automaton.stateCount_addSpan, Automaton.stateCount_attach] at hle hw
  have hw₁ : a.stateCount < 2 ^ 32 := by omega
  have hw₂ : a₁.stateCount < 2 ^ 32 := by omega
  rw [Automaton.addState_fst hw₁] at h₁
  obtain ⟨r, hr, hlaid⟩ := h h₁ (by simp) (Automaton.edgesOf_attach_new hw₁ he) hw₂
  simp only [Automaton.addState_fst hw₁, Automaton.addState_fst hw₂]
  exact ⟨_, ⟨_, _, r, hr, rfl⟩, hlaid.capture he ho hw₂ index⟩

theorem Lays.block (h : part.Lays Q) (hg : part.Grows k) (shape : Shape) (greedy : Bool) :
    (block part shape greedy).Lays fun r =>
      ∃ b r', b.shape = shape ∧ b.greedy = greedy ∧ Q r' ∧ r = .block b r' := by
  intro entry a exit a' heq he ho hw
  obtain ⟨mid, a₁, h₁, rfl, rfl⟩ := block_eq_ok heq
  have hle := (hg h₁).1
  simp only [Laid.stateCount_addExtras, Automaton.stateCount_attach] at hle hw
  have hw₁ : a.stateCount < 2 ^ 32 := by omega
  have hw₂ : (a.attach entry).stateCount < 2 ^ 32 := by simp; omega
  have hw₃ : a₁.stateCount < 2 ^ 32 := by omega
  have hw₄ : (a₁.attach mid).stateCount < 2 ^ 32 := by simp; omega
  have hs : a.stateCount < (a.attach entry).stateCount := by simp
  have hid₂ : (a.attach entry).addState.1 = a.stateCount + 1 := by
    rw [Automaton.addState_fst hw₂, Automaton.stateCount_attach]
  have hid₄ : (a₁.attach mid).addState.1 = a₁.stateCount + 1 := by
    rw [Automaton.addState_fst hw₄, Automaton.stateCount_attach]
  rw [Automaton.addState_fst hw₁, hid₂] at h₁
  have ho' : ((a.attach entry).attach a.stateCount).edgesOf (a.stateCount + 1) = [] := by
    rw [← Automaton.stateCount_attach a entry, Automaton.edgesOf_attach_new hw₂ hs]
  obtain ⟨r, hr, hlaid⟩ := h h₁ (by simp) ho' hw₃
  simp only [Automaton.addState_fst hw₁, Automaton.addState_fst hw₃, hid₂, hid₄]
  let b : Block :=
    ⟨a.stateCount, a.stateCount + 1, a₁.stateCount, a₁.stateCount + 1, shape, greedy⟩
  exact ⟨.block b r, ⟨b, r, rfl, rfl, hr, rfl⟩,
    Laid.block he ho (by omega) (b := b) rfl rfl rfl rfl hlaid⟩

end Fragment

namespace Pattern

variable {p : Pattern} {ps qs : List Pattern} {rest : Fragment} {k : Nat}

theorem lays_sequence_nil : (Fragment.sequence []).Lays (Renders (.sequence [])) := by
  intro entry a exit a' heq he ho hw
  obtain ⟨rfl, rfl⟩ := Fragment.sequence_nil_eq_ok heq
  exact ⟨_, .nil, .empty ho⟩

theorem lays_cons (hp : p.fragment.Lays (Renders p)) (hrest : rest.Lays (Renders (.sequence ps)))
    (hg : rest.Grows k) : (p.fragment.andThen rest).Lays (Renders (.sequence (p :: ps))) := by
  refine (hp.andThen hrest hg).imp ?_
  rintro _ ⟨r₁, r₂, h₁, h₂, rfl⟩
  exact .cons h₁ h₂

theorem lays_fragments (h : ∀ p ∈ ps, p.fragment.Lays (Renders p)) :
    (Fragment.sequence (fragments ps)).Lays (Renders (.sequence ps)) := by
  induction ps with
  | nil => exact lays_sequence_nil
  | cons p ps ih =>
    obtain ⟨hp, hps⟩ := List.forall_mem_cons.1 h
    exact lays_cons hp (ih hps) (grows_fragments fun p _ => p.grows_fragment)

/-- Copies and what follows them are built as a sequence. -/
theorem lays_copies (hp : p.fragment.Lays (Renders p))
    (hrest : rest.Lays (Renders (.sequence qs))) (hg : rest.Grows k) (n : Nat) :
    ((Fragment.copies p.fragment n).andThen rest).Lays
      (Renders (.sequence (List.replicate n p ++ qs))) := by
  induction n with
  | zero => exact hrest
  | succ n ih =>
    have hgrows := (Fragment.grows_copies p.grows_fragment n).andThen hg
    intro entry a exit a' heq he ho hw
    refine lays_cons hp ih hgrows ?_ he ho hw
    obtain ⟨mid, a₁, hcopies, hrest⟩ := Fragment.andThen_eq_ok heq
    obtain ⟨mid', a₂, hfirst, -, hothers⟩ := Fragment.copies_succ_eq_ok hcopies
    exact Fragment.andThen_of_eq_ok hfirst (Fragment.andThen_of_eq_ok hothers hrest)

theorem lays_repeated {body : Pattern} (h : body.fragment.Lays (Renders body)) {times : Repetition}
    {shape : Fragment.Shape} (ht : times.shape? = some shape) (greedy : Bool) :
    (Fragment.block body.fragment shape greedy).Lays (Renders (.repeated body times greedy)) := by
  refine (h.block body.grows_fragment shape greedy).imp ?_
  rintro _ ⟨b, r, rfl, rfl, hr, rfl⟩
  exact .block ht hr

theorem lays_unrolled {body : Pattern} (h : body.fragment.Lays (Renders body)) (min : Nat)
    (max : Option Nat) (greedy : Bool) : (Fragment.counted body.fragment min max greedy).Lays
      (Renders (.sequence (body.unrolled min max greedy))) := by
  cases max with
  | none =>
    have hstar := lays_cons (p := .repeated body .star greedy) (lays_repeated h rfl greedy)
      lays_sequence_nil Fragment.grows_sequence_nil
    have hgrows := (Pattern.repeated body .star greedy).grows_fragment
    rw [Fragment.andThen_nil] at hstar
    exact lays_copies h hstar hgrows min
  | some max =>
    intro entry a exit a' heq
    have hoptional := lays_copies (p := .repeated body .optional greedy)
      (lays_repeated h rfl greedy) lays_sequence_nil Fragment.grows_sequence_nil (max - min)
    rw [Fragment.andThen_nil, List.append_nil] at hoptional
    have hgrows := Fragment.grows_copies
      (Pattern.repeated body .optional greedy).grows_fragment (max - min)
    exact lays_copies h hoptional hgrows min (Fragment.counted_some_eq_ok heq).2

/-- The branches of an alternation are built one after the other. -/
theorem lays_fan (h : ∀ p ∈ ps, p.fragment.Lays (Renders p)) {entry : Nat} {a : Automaton}
    {exits : List Nat} {a' : Automaton}
    (heq : Fragment.fan (fragments ps) entry a = .ok (exits, a')) (he : entry < a.stateCount)
    (hw : a'.stateCount < 2 ^ 32) :
    ∃ start part, (∀ i (h : i < ps.length), Renders ps[i] (part i)) ∧
      FanLaid ps.length start part entry a exits a' := by
  induction ps generalizing a exits with
  | nil =>
    obtain ⟨rfl, rfl⟩ := Fragment.fan_nil_eq_ok heq
    exact ⟨id, fun _ => .empty, nofun, .nil _ _ entry _⟩
  | cons p ps ih =>
    obtain ⟨hp, hps⟩ := List.forall_mem_cons.1 h
    obtain ⟨first, a₁, others, h₁, h₂, rfl⟩ := Fragment.fan_cons_eq_ok heq
    have hle₁ := (p.grows_fragment h₁).1
    have hle₂ := (grows_fan (fun p _ => p.grows_fragment) h₂).1
    rw [Automaton.stateCount_attach] at hle₁
    have hw₁ : a.stateCount < 2 ^ 32 := by omega
    have hw₂ : a₁.stateCount < 2 ^ 32 := by omega
    rw [Automaton.addState_fst hw₁] at h₁
    obtain ⟨r, hr, hlaid⟩ := hp h₁ (by simp) (Automaton.edgesOf_attach_new hw₁ he) hw₂
    obtain ⟨start, part, hparts, hfan⟩ := ih hps h₂ (by omega)
    refine ⟨_, _, ?_, hfan.cons he hw₂ hlaid⟩
    rintro (_ | i) hi
    · exact hr
    · exact hparts i (Nat.lt_of_succ_lt_succ hi)

/-- What is built for a pattern are regions that have its shape. -/
theorem lays_fragment (p : Pattern) : p.fragment.Lays (Renders p) := by
  induction p using induct with
  | alternation branches ih =>
    rw [fragment]
    intro entry a exit a' heq he ho hw
    obtain ⟨hne, exits, a₁, h₁, rfl, rfl⟩ := Fragment.alternation_eq_ok heq
    have hpos : 0 < branches.length :=
      List.length_pos_of_ne_nil fun hnil => hne (by rw [hnil, fragments])
    simp only [stateCount_joinAt, Automaton.stateCount_addState] at hw
    obtain ⟨start, part, hparts, hfan⟩ := lays_fan ih h₁ he (by omega)
    simp only [Automaton.addState_fst (show a₁.stateCount < 2 ^ 32 by omega)]
    exact ⟨_, .alternation hparts, Laid.alt he ho hpos hfan⟩
  | sequence items ih =>
    rw [fragment]
    exact lays_fragments ih
  | repeated body times greedy ih =>
    rw [fragment]
    cases times with
    | optional | star | plus => exact lays_repeated ih rfl greedy
    | counted min max =>
      intro entry a exit a' heq he ho hw
      obtain ⟨r, hr, hlaid⟩ := lays_unrolled ih min max greedy heq he ho hw
      refine ⟨r, .counted (fun m hm => ?_) hr, hlaid⟩
      subst hm
      exact (Fragment.counted_some_eq_ok heq).1
  | group capture body ih =>
    cases capture with
    | none =>
      rw [fragment]
      exact ih.imp fun r hr => .group hr
    | some index =>
      rw [fragment]
      refine (ih.capture body.grows_fragment index).imp ?_
      rintro _ ⟨first, last, r, hr, rfl⟩
      exact .capture hr
  | anchor x =>
    rw [fragment]
    exact Fragment.lays_edge fun _ => .anchor
  | char c =>
    rw [fragment]
    exact Fragment.lays_edge fun _ => .char
  | charClass k =>
    rw [fragment]
    exact Fragment.lays_edge fun _ => .charClass
  | set negated items =>
    rw [fragment]
    intro entry a exit a' heq he ho hw
    obtain ⟨s, hs, heq⟩ := Fragment.set_eq_ok heq
    exact Fragment.lays_edge (fun _ => .set hs) heq he ho hw

end Pattern

/-- The automaton is a region, entered at state 0 and left at the only final state. -/
structure Automaton.IsRegion (a : Automaton) (r : Region) : Prop where
  numbered : r.Numbered 1 a.stateCount
  fits : r.Fits a.edgesOf 0
  final_iff : ∀ id, a.isFinal id = true ↔ id = r.exit 0
  open_exit : a.edgesOf (r.exit 0) = []
  closed : a.Closed

theorem Automaton.IsRegion.finalsEnd {a : Automaton} {r : Region} (h : a.IsRegion r) :
    a.FinalsEnd := fun id hf => by
  rw [(h.final_iff id).1 hf, h.open_exit]

namespace Pattern

/-- The automaton to which the fragment of a pattern is added: one state, and all the groups. -/
def seed (p : Pattern) (flags : Flags) : Automaton :=
  { Automaton.single flags with groups := p.declaredGroups }

@[simp] theorem stateCount_seed (p : Pattern) (flags : Flags) : (p.seed flags).stateCount = 1 :=
  rfl

theorem edgesOf_seed (p : Pattern) (flags : Flags) (id : Nat) : (p.seed flags).edgesOf id = [] := by
  cases id <;> rfl

/-- A pattern is built if no group in it is numbered 0 and its fragment can be added to the seed. -/
theorem build_eq_ok_iff {p : Pattern} {flags : Flags} {a : Automaton} :
    p.build flags = .ok a ↔ 0 ∉ p.captures ∧
      ∃ exit a', p.fragment 0 (p.seed flags) = .ok (exit, a') ∧ a = a'.setFinal exit := by
  rw [build]
  constructor
  · intro h
    split at h
    case isTrue => cases h
    case isFalse hzero =>
      obtain ⟨⟨exit, a'⟩, h₁, h₂⟩ := exists_of_bind_eq_ok h
      exact ⟨mt List.contains_iff_mem.2 hzero, exit, a', h₁, (Except.ok.inj h₂).symm⟩
  · rintro ⟨hzero, exit, a', h, rfl⟩
    rw [seed] at h
    rw [if_neg (mt List.contains_iff_mem.1 hzero), h]
    rfl

theorem fragment_of_build {p : Pattern} {flags : Flags} {a : Automaton}
    (h : p.build flags = .ok a) :
    ∃ exit a', p.fragment 0 (p.seed flags) = .ok (exit, a') ∧ a = a'.setFinal exit :=
  (build_eq_ok_iff.1 h).2

/-- Fewer than `2 ^ 29` nodes have so few states that each has an id of its own. -/
theorem stateCount_lt_of_build {p : Pattern} {flags : Flags} {a : Automaton}
    (hn : p.nodes < 2 ^ 29) (h : p.build flags = .ok a) : a.stateCount < 2 ^ 32 := by
  obtain ⟨exit, a', hbuild, rfl⟩ := fragment_of_build h
  have := (p.grows_fragment hbuild).2
  rw [stateCount_seed, Fragment.maxStates] at this
  change a'.stateCount < _
  omega

/-- The automaton of a pattern is a single state with a region of the shape of the pattern added,
whose exit is made final. -/
theorem laid_of_build {p : Pattern} {flags : Flags} {a : Automaton} (hw : a.stateCount < 2 ^ 32)
    (h : p.build flags = .ok a) :
    ∃ r a', p.Renders r ∧ Laid r 0 (p.seed flags) (r.exit 0) a' ∧ a = a'.setFinal (r.exit 0) := by
  obtain ⟨exit, a', hbuild, rfl⟩ := fragment_of_build h
  obtain ⟨r, hr, hlaid⟩ := p.lays_fragment hbuild Nat.one_pos (edgesOf_seed p flags 0) hw
  obtain rfl := hlaid.exit_eq
  exact ⟨r, a', hr, hlaid, rfl⟩

/-- An automaton whose states have ids of their own is a region that has the shape of the pattern
for which it was built. -/
theorem renders_of_stateCount_lt {p : Pattern} {flags : Flags} {a : Automaton}
    (hw : a.stateCount < 2 ^ 32) (h : p.build flags = .ok a) :
    ∃ r, p.Renders r ∧ a.IsRegion r ∧ a.flags = flags ∧
      a.groups = Group.record r.spans p.declaredGroups := by
  obtain ⟨r, a', hr, hlaid, rfl⟩ := laid_of_build hw h
  refine ⟨r, hr, ⟨hlaid.numbered, hlaid.fits _ fun _ _ _ _ => rfl, fun id => ?_, hlaid.open_exit,
    hlaid.numbered.le, ?_⟩, hlaid.flags_eq, hlaid.groups_eq⟩
  · simp [Automaton.isFinal, Automaton.setFinal, hlaid.finals_eq, seed, Automaton.single,
      Automaton.ofCount, insertId]
  · apply hlaid.bounded
    intro id e he
    rw [edgesOf_seed] at he
    cases he

/-- The automaton of a pattern is a region that has the shape of the pattern. -/
theorem renders_of_build {p : Pattern} {flags : Flags} {a : Automaton} (hn : p.nodes < 2 ^ 29)
    (h : p.build flags = .ok a) :
    ∃ r, p.Renders r ∧ a.IsRegion r ∧ a.flags = flags ∧
      a.groups = Group.record r.spans p.declaredGroups :=
  renders_of_stateCount_lt (stateCount_lt_of_build hn h) h

/-- The automaton of a pattern has so few states that each has an id of its own, and one of them is
final. -/
theorem finals_of_build {p : Pattern} {flags : Flags} {a : Automaton} (hn : p.nodes < 2 ^ 29)
    (h : p.build flags = .ok a) : a.stateCount < 2 ^ 32 ∧ ∃ final, a.finals = [final] := by
  have hw := stateCount_lt_of_build hn h
  obtain ⟨r, a', -, hlaid, rfl⟩ := laid_of_build hw h
  refine ⟨hw, r.exit 0, ?_⟩
  simp [Automaton.setFinal, hlaid.finals_eq, seed, Automaton.single, Automaton.ofCount, insertId]

end Pattern

end PatternAutomata
