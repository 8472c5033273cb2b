import Flatword.Proofs.Condition

/-!
# Structured code and jumps

`Realizes` says that code at any position of other code does what a behaviour says: it comes to where the
behaviour ends, and it does not run on for ever where the behaviour does not end. Loops are put together from
their parts.
-/

namespace Flatword

variable {pos : Nat} {whole : Code}

/-! ## Behaviours -/

/-- How a statement ends. -/
inductive Ending where
  | through
  /-- The loop around the statement is left. -/
  | broken
  /-- The round of the loop around the statement is over. -/
  | continued
  deriving DecidableEq, Repr

/-- From which memory a statement ends how, and with which memory. -/
abbrev Behaviour := Memory → Ending → Memory → Prop

/-- The rounds of a loop, from one test to the end of the loop. -/
inductive Rounds (test : Memory → Bool) (body : Behaviour) (next : Memory → Memory) :
    Memory → Memory → Prop
  | stop {μ} (h : test μ = false) : Rounds test body next μ μ
  | leave {μ μ'} (h : test μ = true) (hbody : body μ .broken μ') : Rounds test body next μ μ'
  | again {μ μ₁ μ' how} (h : test μ = true) (hhow : how ≠ .broken)
      (hbody : body μ how μ₁) (hrest : Rounds test body next (next μ₁) μ') :
      Rounds test body next μ μ'

namespace Behaviour

def update (f : Memory → Memory) : Behaviour :=
  fun μ how μ' => how = .through ∧ μ' = f μ

def leave (ending : Ending) : Behaviour :=
  fun μ how μ' => how = ending ∧ μ' = μ

def seq (first second : Behaviour) : Behaviour :=
  fun μ how μ' => (∃ μ₁, first μ .through μ₁ ∧ second μ₁ how μ') ∨ how ≠ .through ∧ first μ how μ'

def choose (test : Memory → Bool) (yes no : Behaviour) : Behaviour :=
  fun μ how μ' => if test μ then yes μ how μ' else no μ how μ'

def loop (test : Memory → Bool) (body : Behaviour) (next : Memory → Memory) : Behaviour :=
  fun μ how μ' => how = .through ∧ Rounds test body next μ μ'

def loopAfter (test : Memory → Bool) (body : Behaviour) : Behaviour :=
  fun μ how μ' => how = .through ∧
    (body μ .broken μ' ∨ ∃ first μ₁, first ≠ .broken ∧ body μ first μ₁ ∧ Rounds test body id μ₁ μ')

end Behaviour

/-! ## Parts of code -/

namespace Code

def HasAt (whole : Code) (pos : Nat) (part : Code) : Prop :=
  ∃ front back, whole = front ++ part ++ back ∧ front.length = pos

variable {whole part part' : Code} {pos : Nat}

theorem hasAt_self (whole : Code) : whole.HasAt 0 whole :=
  ⟨[], [], by simp, rfl⟩

theorem HasAt.left (h : whole.HasAt pos (part ++ part')) : whole.HasAt pos part := by
  obtain ⟨front, back, rfl, hpos⟩ := h
  exact ⟨front, part' ++ back, by simp, hpos⟩

theorem HasAt.right (h : whole.HasAt pos (part ++ part')) :
    whole.HasAt (pos + part.length) part' := by
  obtain ⟨front, back, rfl, rfl⟩ := h
  exact ⟨front ++ part, back, by simp, by simp⟩

theorem HasAt.getElem? {instr : Instr} (h : whole.HasAt pos [instr]) : whole[pos]? = some instr := by
  obtain ⟨front, back, rfl, rfl⟩ := h
  simp

theorem HasAt.goto {label : String} (h : whole.HasAt pos [.label label])
    (hlabels : whole.labels.Nodup) (s : Store) : whole.goto label s = .at pos s := by
  obtain ⟨front, back, rfl, rfl⟩ := h
  have hwhole : front ++ [.label label] ++ back = front ++ .label label :: back := by simp
  rw [hwhole] at hlabels ⊢
  exact Machine.goto_middle hlabels

end Code

/-! ## Runs that come to an end -/

namespace Machine

variable {label : String} {pos : Nat} {m : Machine} {code : Code} {x y z : Run}

def Advances (m : Machine) (code : Code) : Run → Run → Prop :=
  Relation.TransGen fun x y => m.step code x = some y

def Halts (m : Machine) (code : Code) (x : Run) : Prop :=
  Acc (fun y x => m.step code x = some y) x

theorem Halts.of_final (h : m.Steps code x y) (hy : m.step code y = none) : m.Halts code x := by
  induction h using Relation.ReflTransGen.head_induction_on with
  | refl => exact .intro _ fun z hz => by simp [hy] at hz
  | head hstep _ ih =>
    refine .intro _ fun z hz => ?_
    obtain rfl := Option.some.inj (hstep.symm.trans hz)
    exact ih

theorem Halts.steps (h : m.Halts code x) (hxy : m.Steps code x y) : m.Halts code y := by
  induction hxy with
  | refl => exact h
  | tail _ hstep ih => exact ih.inv hstep

theorem Halts.induction {P : Run → Prop} (h : m.Halts code x)
    (hP : ∀ x, m.Halts code x → (∀ y, m.Advances code x y → P y) → P x) : P x := by
  have hacc : Acc (fun y x => m.Advances code x y) x := by
    have hswap : (fun y x => m.Advances code x y) =
        Relation.TransGen fun y x => m.step code x = some y := by
      funext y x
      exact propext Relation.transGen_swap
    rw [hswap]
    exact h.transGen
  induction hacc with
  | intro x _ ih => exact hP x h fun y hy => ih y hy (h.steps hy.to_reflTransGen)

theorem steps_part {part : Code} (h : code.HasAt pos part) (hlabels : code.labels.Nodup) (s : Store) :
    m.Steps code (.at pos s) ((m.flow part (.falling s)).run code (pos + part.length)) := by
  obtain ⟨front, back, rfl, rfl⟩ := h
  exact steps_flow front part back (.falling s) hlabels

theorem advances_label (h : code.HasAt pos [.label label]) (s : Store) :
    m.Advances code (.at pos s) (.at (pos + 1) s) := by
  refine .single ?_
  simp [step, h.getElem?, act, effect]

theorem advances_jump (h : code.HasAt pos [.jump label]) (s : Store) :
    m.Advances code (.at pos s) (code.goto label s) := by
  refine .single ?_
  simp [step, h.getElem?, act]

theorem steps_label (h : code.HasAt pos [.label label]) (s : Store) :
    m.Steps code (.at pos s) (.at (pos + 1) s) :=
  (advances_label h s).to_reflTransGen

theorem steps_jump {pos goal : Nat} (hlabels : code.labels.Nodup) (h : code.HasAt pos [.jump label])
    (hgoal : code.HasAt goal [.label label]) (s : Store) : m.Steps code (.at pos s) (.at goal s) := by
  rw [← hgoal.goto hlabels s]
  exact (advances_jump h s).to_reflTransGen

end Machine

/-! ## Code for behaviours -/

/-- A memory that code runs on stands for another one: the constants are in place, and what is in the
registers does not matter. -/
structure Mirrors (C : Memory → Prop) (R : Set Nat) (μ ν : Memory) : Prop where
  constants : C μ
  agree : AgreeOutside R μ ν

def Ending.resume (whole : Code) (loop : Option LoopLabels) (stop : Nat) (s : Store) :
    Ending → Option Run
  | through => some (.at stop s)
  | broken => loop.map fun labels => whole.goto labels.onBreak s
  | continued => loop.map fun labels => whole.goto labels.onContinue s

theorem Ending.resume_steps {m : Machine} {loop : Option LoopLabels} {stop stop' : Nat} {s : Store}
    {how : Ending} {x : Run} (hx : how.resume whole loop stop s = some x)
    (h : m.Steps whole (.at stop s) (.at stop' s)) :
    ∃ y, how.resume whole loop stop' s = some y ∧ m.Steps whole x y := by
  cases how with
  | through =>
    obtain rfl := Option.some.inj hx
    exact ⟨_, rfl, h⟩
  | broken | continued => exact ⟨x, hx, .refl⟩

section Stretches

variable (m : Machine) (C : Memory → Prop) (R : Set Nat) (whole : Code)

/-- The code between two positions does what a behaviour says, inside of a loop or not. -/
structure Stretch (loop : Option LoopLabels) (behaviour : Behaviour) (start stop : Nat) : Prop where
  runs : ∀ {μ μ' ν : Memory} {how : Ending}, behaviour μ how μ' → Mirrors C R μ ν →
    ∀ stack : List Word, ∃ ν' x, Mirrors C R μ' ν' ∧
      how.resume whole loop stop ⟨ν', stack⟩ = some x ∧ m.Steps whole (.at start ⟨ν, stack⟩) x
  halts : ∀ {μ ν : Memory} {stack : List Word}, Mirrors C R μ ν →
    m.Halts whole (.at start ⟨ν, stack⟩) → ∃ how μ', behaviour μ how μ'

/-- The code at a position leads to one of two positions, as a test says. -/
def Parts (test : Memory → Bool) (start onTrue onFalse : Nat) : Prop :=
  ∀ ⦃μ ν : Memory⦄ (stack : List Word), Mirrors C R μ ν → ∃ ν', Mirrors C R μ ν' ∧
    m.Steps whole (.at start ⟨ν, stack⟩) (.at (if test μ then onTrue else onFalse) ⟨ν', stack⟩)

/-- The code at a position changes the memory and goes on at another position. -/
def Moves (f : Memory → Memory) (start stop : Nat) : Prop :=
  ∀ ⦃μ ν : Memory⦄ (stack : List Word), Mirrors C R μ ν → ∃ ν', Mirrors C R (f μ) ν' ∧
    m.Steps whole (.at start ⟨ν, stack⟩) (.at stop ⟨ν', stack⟩)

variable {m C R whole} {loop : Option LoopLabels} {first second body yes no : Behaviour}
  {start middle stop : Nat} {test : Memory → Bool}

theorem Moves.of_steps (h : ∀ s, m.Steps whole (.at start s) (.at stop s)) :
    Moves m C R whole id start stop :=
  fun _ ν stack hν => ⟨ν, hν, h ⟨ν, stack⟩⟩

theorem Moves.extend {f : Memory → Memory} {start' stop' : Nat} (h : Moves m C R whole f start stop)
    (hstart : ∀ s, m.Steps whole (.at start' s) (.at start s))
    (hstop : ∀ s, m.Steps whole (.at stop s) (.at stop' s)) :
    Moves m C R whole f start' stop' := by
  intro μ ν stack hν
  obtain ⟨ν', hν', hsteps⟩ := h stack hν
  exact ⟨ν', hν', (hstart _).trans (hsteps.trans (hstop _))⟩

namespace Stretch

theorem of_moves {f : Memory → Memory} (h : Moves m C R whole f start stop) :
    Stretch m C R whole loop (.update f) start stop where
  runs := by
    rintro μ _ ν _ ⟨rfl, rfl⟩ hν stack
    obtain ⟨ν', hν', hsteps⟩ := h stack hν
    exact ⟨ν', _, hν', rfl, hsteps⟩
  halts _ _ := ⟨_, _, rfl, rfl⟩

theorem seq (h : Stretch m C R whole loop first start middle)
    (h' : Stretch m C R whole loop second middle stop) :
    Stretch m C R whole loop (.seq first second) start stop where
  runs := by
    rintro μ μ' ν how (⟨μ₁, hfirst, hsecond⟩ | ⟨hhow, hfirst⟩) hν stack
    · obtain ⟨ν₁, x, hν₁, hx, hsteps⟩ := h.runs hfirst hν stack
      obtain rfl := Option.some.inj hx
      obtain ⟨ν₂, y, hν₂, hy, hsteps'⟩ := h'.runs hsecond hν₁ stack
      exact ⟨ν₂, y, hν₂, hy, hsteps.trans hsteps'⟩
    · obtain ⟨ν₁, x, hν₁, hx, hsteps⟩ := h.runs hfirst hν stack
      refine ⟨ν₁, x, hν₁, ?_, hsteps⟩
      cases how with
      | through => exact absurd rfl hhow
      | broken | continued => exact hx
  halts := by
    intro μ ν stack hν hhalts
    obtain ⟨how, μ₁, hfirst⟩ := h.halts hν hhalts
    by_cases hhow : how = .through
    · subst hhow
      obtain ⟨ν₁, x, hν₁, hx, hsteps⟩ := h.runs hfirst hν stack
      obtain rfl := Option.some.inj hx
      obtain ⟨how, μ₂, hsecond⟩ := h'.halts hν₁ (hhalts.steps hsteps)
      exact ⟨how, μ₂, .inl ⟨μ₁, hfirst, hsecond⟩⟩
    · exact ⟨how, μ₁, .inr ⟨hhow, hfirst⟩⟩

theorem extend {start' stop' : Nat} (h : Stretch m C R whole loop body start stop)
    (hstart : ∀ s, m.Steps whole (.at start' s) (.at start s))
    (hstop : ∀ s, m.Steps whole (.at stop s) (.at stop' s)) :
    Stretch m C R whole loop body start' stop' where
  runs hbody hν stack := by
    obtain ⟨ν', x, hν', hx, hsteps⟩ := h.runs hbody hν stack
    obtain ⟨y, hy, hsteps'⟩ := Ending.resume_steps hx (hstop _)
    exact ⟨ν', y, hν', hy, (hstart _).trans (hsteps.trans hsteps')⟩
  halts hν hhalts := h.halts hν (hhalts.steps (hstart _))

theorem choose {onTrue onFalse : Nat} (htest : Parts m C R whole test start onTrue onFalse)
    (hyes : Stretch m C R whole loop yes onTrue stop)
    (hno : Stretch m C R whole loop no onFalse stop) :
    Stretch m C R whole loop (.choose test yes no) start stop where
  runs {μ μ' ν how} hbehaviour hν stack := by
    obtain ⟨ν₁, hν₁, hsteps⟩ := htest stack hν
    unfold Behaviour.choose at hbehaviour
    split at hbehaviour
    · next ht =>
      obtain ⟨ν₂, x, hν₂, hx, hsteps'⟩ := hyes.runs hbehaviour hν₁ stack
      rw [if_pos ht] at hsteps
      exact ⟨ν₂, x, hν₂, hx, hsteps.trans hsteps'⟩
    · next ht =>
      obtain ⟨ν₂, x, hν₂, hx, hsteps'⟩ := hno.runs hbehaviour hν₁ stack
      rw [if_neg ht] at hsteps
      exact ⟨ν₂, x, hν₂, hx, hsteps.trans hsteps'⟩
  halts {μ ν stack} hν hhalts := by
    obtain ⟨ν₁, hν₁, hsteps⟩ := htest stack hν
    have hhalts := hhalts.steps hsteps
    cases ht : test μ with
    | true => simpa [Behaviour.choose, ht] using hyes.halts hν₁ (by simpa [ht] using hhalts)
    | false => simpa [Behaviour.choose, ht] using hno.halts hν₁ (by simpa [ht] using hhalts)

end Stretch

/-- The positions of a loop: the test at `head` leads into the body at `start` or to `stop`, and
after the body, which ends at `fin`, the next round begins. -/
structure LoopAt (m : Machine) (C : Memory → Prop) (R : Set Nat) (whole : Code) (labels : LoopLabels)
    (test : Memory → Bool) (body : Behaviour) (next : Memory → Memory) (head start fin stop : Nat) :
    Prop where
  enter : ∀ s, m.Advances whole (.at head s) (.at (head + 1) s)
  test : Parts m C R whole test (head + 1) start stop
  body : Stretch m C R whole (some labels) body start fin
  again : Moves m C R whole next fin head
  onContinue : ∃ pos, (∀ s, whole.goto labels.onContinue s = .at pos s) ∧
    Moves m C R whole next pos head
  onBreak : ∀ s, whole.goto labels.onBreak s = .at stop s

namespace LoopAt

variable {labels : LoopLabels} {next : Memory → Memory} {head fin : Nat} {μ μ₁ ν : Memory}
  {how : Ending}

theorem round (h : LoopAt m C R whole labels test body next head start fin stop)
    (hbody : body μ how μ₁) (hhow : how ≠ .broken) (hν : Mirrors C R μ ν) (stack : List Word) :
    ∃ ν', Mirrors C R (next μ₁) ν' ∧
      m.Steps whole (.at start ⟨ν, stack⟩) (.at head ⟨ν', stack⟩) := by
  obtain ⟨ν₁, x, hν₁, hx, hsteps⟩ := h.body.runs hbody hν stack
  cases how with
  | broken => exact absurd rfl hhow
  | through =>
    obtain rfl := Option.some.inj hx
    obtain ⟨ν₂, hν₂, hsteps'⟩ := h.again stack hν₁
    exact ⟨ν₂, hν₂, hsteps.trans hsteps'⟩
  | continued =>
    obtain ⟨pos, hpos, hnext⟩ := h.onContinue
    obtain rfl : whole.goto labels.onContinue _ = x := Option.some.inj hx
    rw [hpos] at hsteps
    obtain ⟨ν₂, hν₂, hsteps'⟩ := hnext stack hν₁
    exact ⟨ν₂, hν₂, hsteps.trans hsteps'⟩

theorem leave (h : LoopAt m C R whole labels test body next head start fin stop)
    (hbody : body μ .broken μ₁) (hν : Mirrors C R μ ν) (stack : List Word) :
    ∃ ν', Mirrors C R μ₁ ν' ∧ m.Steps whole (.at start ⟨ν, stack⟩) (.at stop ⟨ν', stack⟩) := by
  obtain ⟨ν₁, x, hν₁, hx, hsteps⟩ := h.body.runs hbody hν stack
  obtain rfl : whole.goto labels.onBreak _ = x := Option.some.inj hx
  rw [h.onBreak] at hsteps
  exact ⟨ν₁, hν₁, hsteps⟩

theorem tested (h : LoopAt m C R whole labels test body next head start fin stop)
    (hν : Mirrors C R μ ν) (stack : List Word) :
    ∃ ν', Mirrors C R μ ν' ∧ m.Advances whole (.at head ⟨ν, stack⟩)
      (.at (if test μ then start else stop) ⟨ν', stack⟩) := by
  obtain ⟨ν', hν', hsteps⟩ := h.test stack hν
  exact ⟨ν', hν', (h.enter _).trans_left hsteps⟩

theorem runs (h : LoopAt m C R whole labels test body next head start fin stop) {μ' : Memory}
    (hrounds : Rounds test body next μ μ') (hν : Mirrors C R μ ν) (stack : List Word) :
    ∃ ν', Mirrors C R μ' ν' ∧ m.Steps whole (.at head ⟨ν, stack⟩) (.at stop ⟨ν', stack⟩) := by
  induction hrounds generalizing ν with
  | stop ht =>
    obtain ⟨ν', hν', hadvances⟩ := h.tested hν stack
    rw [ht] at hadvances
    exact ⟨ν', hν', hadvances.to_reflTransGen⟩
  | leave ht hbody =>
    obtain ⟨ν₁, hν₁, hadvances⟩ := h.tested hν stack
    rw [if_pos ht] at hadvances
    obtain ⟨ν₂, hν₂, hsteps⟩ := h.leave hbody hν₁ stack
    exact ⟨ν₂, hν₂, hadvances.to_reflTransGen.trans hsteps⟩
  | again ht hhow hbody _ ih =>
    obtain ⟨ν₁, hν₁, hadvances⟩ := h.tested hν stack
    rw [if_pos ht] at hadvances
    obtain ⟨ν₂, hν₂, hsteps⟩ := h.round hbody hhow hν₁ stack
    obtain ⟨ν₃, hν₃, hrest⟩ := ih hν₂
    exact ⟨ν₃, hν₃, hadvances.to_reflTransGen.trans (hsteps.trans hrest)⟩

theorem halts (h : LoopAt m C R whole labels test body next head start fin stop) {stack : List Word}
    (hν : Mirrors C R μ ν) (hhalts : m.Halts whole (.at head ⟨ν, stack⟩)) :
    ∃ μ', Rounds test body next μ μ' := by
  refine hhalts.induction (P := fun x => ∀ μ ν, x = .at head ⟨ν, stack⟩ → Mirrors C R μ ν →
    ∃ μ', Rounds test body next μ μ') ?_ μ ν rfl hν
  rintro _ hhalts ih μ ν rfl hν
  obtain ⟨ν₁, hν₁, hadvances⟩ := h.tested hν stack
  cases ht : test μ with
  | false => exact ⟨μ, .stop ht⟩
  | true =>
    rw [if_pos ht] at hadvances
    obtain ⟨how, μ₁, hbody⟩ := h.body.halts hν₁ (hhalts.steps hadvances.to_reflTransGen)
    by_cases hhow : how = .broken
    · subst hhow
      exact ⟨μ₁, .leave ht hbody⟩
    · obtain ⟨ν₂, hν₂, hsteps⟩ := h.round hbody hhow hν₁ stack
      obtain ⟨μ', hrest⟩ := ih _ (hadvances.trans_left hsteps) _ _ rfl hν₂
      exact ⟨μ', .again ht hhow hbody hrest⟩

theorem stretch (h : LoopAt m C R whole labels test body next head start fin stop)
    (loop : Option LoopLabels) :
    Stretch m C R whole loop (.loop test body next) head stop where
  runs := by
    rintro μ μ' ν _ ⟨rfl, hrounds⟩ hν stack
    obtain ⟨ν', hν', hsteps⟩ := h.runs hrounds hν stack
    exact ⟨ν', _, hν', rfl, hsteps⟩
  halts hν hhalts := by
    obtain ⟨μ', hrounds⟩ := h.halts hν hhalts
    exact ⟨.through, μ', rfl, hrounds⟩

theorem stretch_after (h : LoopAt m C R whole labels test body id head start fin stop)
    (loop : Option LoopLabels) :
    Stretch m C R whole loop (.loopAfter test body) start stop where
  runs := by
    rintro μ μ' ν _ ⟨rfl, hbody | ⟨how, μ₁, hhow, hbody, hrounds⟩⟩ hν stack
    · obtain ⟨ν', hν', hsteps⟩ := h.leave hbody hν stack
      exact ⟨ν', _, hν', rfl, hsteps⟩
    · obtain ⟨ν₁, hν₁, hsteps⟩ := h.round hbody hhow hν stack
      obtain ⟨ν₂, hν₂, hrest⟩ := h.runs hrounds hν₁ stack
      exact ⟨ν₂, _, hν₂, rfl, hsteps.trans hrest⟩
  halts {μ ν stack} hν hhalts := by
    obtain ⟨how, μ₁, hbody⟩ := h.body.halts hν hhalts
    by_cases hhow : how = .broken
    · subst hhow
      exact ⟨.through, μ₁, rfl, .inl hbody⟩
    · obtain ⟨ν₁, hν₁, hsteps⟩ := h.round hbody hhow hν stack
      obtain ⟨μ', hrounds⟩ := h.halts hν₁ (hhalts.steps hsteps)
      exact ⟨.through, μ', rfl, .inr ⟨how, μ₁, hhow, hbody, hrounds⟩⟩

end LoopAt

end Stretches

/-! ## Code for statements -/

section Code

variable (m : Machine) (C : Memory → Prop) (R : Set Nat)

def Realizes (loop : Option LoopLabels) (behaviour : Behaviour) (code : Code) : Prop :=
  ∀ ⦃whole : Code⦄ ⦃pos : Nat⦄, whole.labels.Nodup → whole.HasAt pos code →
    Stretch m C R whole loop behaviour pos (pos + code.length)

def Makes (f : Memory → Memory) (code : Code) : Prop :=
  ∀ ⦃μ ν⦄, Mirrors C R μ ν → ∃ ν', m.Runs code ν ν' ∧ Mirrors C R (f μ) ν'

/-- Code goes to the label of the side that a test says, or falls through to it. -/
def Tests (b : Lower.Branch) (test : Memory → Bool) (code : Code) : Prop :=
  ∀ ⦃whole : Code⦄ ⦃pos onTrue onFalse : Nat⦄, whole.labels.Nodup → whole.HasAt pos code →
    whole.HasAt onTrue [.label b.onTrue] → whole.HasAt onFalse [.label b.onFalse] →
    (pos + code.length = if b.reversed then onFalse else onTrue) →
    Parts m C R whole test pos onTrue onFalse

variable {m C R} {loop : Option LoopLabels} {first second body yes no : Behaviour}
  {b : Lower.Branch} {test : Memory → Bool} {f : Memory → Memory} {note code code' tested : Code}

theorem Makes.nil : Makes m C R id [] :=
  fun _ ν hν => ⟨ν, .nil, hν⟩

theorem Makes.moves (h : Makes m C R f code) (hlabels : whole.labels.Nodup) (hat : whole.HasAt pos code) :
    Moves m C R whole f pos (pos + code.length) := by
  intro μ ν stack hν
  obtain ⟨ν', hruns, hν'⟩ := h hν
  refine ⟨ν', hν', ?_⟩
  have hsteps := Machine.steps_part (m := m) hat hlabels ⟨ν, stack⟩
  rwa [hruns stack] at hsteps

theorem Makes.realizes (h : Makes m C R f code) : Realizes m C R loop (.update f) code :=
  fun _ _ hlabels hat => .of_moves (h.moves hlabels hat)

theorem steps_note (hnote : ∀ μ, m.Runs note μ μ) (hlabels : whole.labels.Nodup)
    (hat : whole.HasAt pos note) (s : Store) :
    m.Steps whole (.at pos s) (.at (pos + note.length) s) := by
  have hsteps := Machine.steps_part (m := m) hat hlabels s
  rwa [hnote s.memory s.stack] at hsteps

theorem Tests.nil (hb : b.reversed = false) : Tests m C R b (fun _ => true) [] := by
  intro whole pos onTrue onFalse _ _ _ _ hpos μ ν stack hν
  rw [hb] at hpos
  obtain rfl : pos = onTrue := hpos
  exact ⟨ν, hν, .refl⟩

theorem Tests.of_leave (h : ∀ ⦃μ ν⦄ (stack : List Word), Mirrors C R μ ν → ∃ ν' x,
      Mirrors C R μ ν' ∧ x.side = test μ ∧ (x.jumped = false → x.side = !b.reversed) ∧
      m.flow code (.falling ⟨ν, stack⟩) = b.leave x ⟨ν', stack⟩) : Tests m C R b test code := by
  intro whole pos onTrue onFalse hlabels hat htrue hfalse hpos μ ν stack hν
  obtain ⟨ν', x, hν', hside, hfalls, hflow⟩ := h stack hν
  refine ⟨ν', hν', ?_⟩
  have hsteps := Machine.steps_part (m := m) hat hlabels ⟨ν, stack⟩
  rw [hflow, Lower.Branch.leave] at hsteps
  rw [← hside]
  split at hsteps
  · have hgoto : whole.goto (b.label x.side) ⟨ν', stack⟩ =
        .at (if x.side then onTrue else onFalse) ⟨ν', stack⟩ := by
      cases x.side with
      | true => exact htrue.goto hlabels _
      | false => exact hfalse.goto hlabels _
    exact hgoto ▸ hsteps
  · next hjumped =>
    have hside := hfalls (by simpa using hjumped)
    have hend : pos + code.length = if x.side then onTrue else onFalse := by
      rw [hpos, hside]
      cases b.reversed <;> rfl
    exact hend ▸ hsteps

theorem Tests.after (hnote : ∀ μ, m.Runs note μ μ) (h : Tests m C R b test code) :
    Tests m C R b test (note ++ code) := by
  intro whole pos onTrue onFalse hlabels hat htrue hfalse hpos μ ν stack hν
  rw [List.length_append, ← Nat.add_assoc] at hpos
  obtain ⟨ν', hν', hsteps⟩ := h hlabels hat.right htrue hfalse hpos stack hν
  exact ⟨ν', hν', (steps_note hnote hlabels hat.left _).trans hsteps⟩

namespace Realizes

theorem after (hnote : ∀ μ, m.Runs note μ μ) (h : Realizes m C R loop body code) :
    Realizes m C R loop body (note ++ code) := by
  intro whole pos hlabels hat
  have hstretch := (h hlabels hat.right).extend (steps_note hnote hlabels hat.left) fun _ => .refl
  rwa [List.length_append, ← Nat.add_assoc]

theorem seq (h : Realizes m C R loop first code) (h' : Realizes m C R loop second code') :
    Realizes m C R loop (.seq first second) (code ++ code') := by
  intro whole pos hlabels hat
  have hstretch := (h hlabels hat.left).seq (h' hlabels hat.right)
  rwa [List.length_append, ← Nat.add_assoc]

theorem jump {ending : Ending} {label : String}
    (h : ∀ {whole stop s}, ending.resume whole loop stop s = some (whole.goto label s)) :
    Realizes m C R loop (.leave ending) [.jump label] := by
  intro whole pos _ hat
  refine ⟨?_, fun _ _ => ⟨_, _, rfl, rfl⟩⟩
  rintro μ _ ν _ ⟨rfl, rfl⟩ hν stack
  exact ⟨ν, _, hν, h, (Machine.advances_jump hat _).to_reflTransGen⟩

theorem ifElse {done : String} (hb : b.reversed = false) (htest : Tests m C R b test tested)
    (hyes : Realizes m C R loop yes code) (hno : Realizes m C R loop no code') :
    Realizes m C R loop (.choose test yes no)
      (tested ++ [Instr.label b.onTrue] ++ code ++ ([Instr.jump done, .label b.onFalse] ++ code') ++
        [Instr.label done]) := by
  intro whole pos hlabels hat
  have hat : whole.HasAt pos (tested ++ ([Instr.label b.onTrue] ++ (code ++ ([Instr.jump done] ++
      ([Instr.label b.onFalse] ++ (code' ++ [Instr.label done])))))) := by simpa using hat
  have htrue := hat.right.left
  have hjump := hat.right.right.right.left
  have hfalse := hat.right.right.right.right.left
  have hdone := hat.right.right.right.right.right.right
  have hpass := Machine.steps_label (m := m) hdone
  have hparts := htest hlabels hat.left htrue hfalse (by simp [hb])
  have hthen := (hyes hlabels hat.right.right.left).extend
    (Machine.steps_label htrue) fun s =>
      (Machine.steps_jump hlabels hjump hdone s).trans (hpass s)
  have helse := (hno hlabels hat.right.right.right.right.right.left).extend
    (Machine.steps_label hfalse) hpass
  have hstretch := Stretch.choose hparts hthen helse
  convert hstretch using 1
  simp
  omega

theorem ifOnly (hb : b.reversed = false) (htest : Tests m C R b test tested)
    (hyes : Realizes m C R loop yes code) :
    Realizes m C R loop (.choose test yes (.update id))
      (tested ++ [Instr.label b.onTrue] ++ code ++ [Instr.label b.onFalse]) := by
  intro whole pos hlabels hat
  have hat : whole.HasAt pos (tested ++ ([Instr.label b.onTrue] ++ (code ++ [Instr.label b.onFalse]))) := by
    simpa using hat
  have htrue := hat.right.left
  have hfalse := hat.right.right.right
  have hpass := Machine.steps_label (m := m) hfalse
  have hparts := htest hlabels hat.left htrue hfalse (by simp [hb])
  have hthen := (hyes hlabels hat.right.right.left).extend
    (Machine.steps_label htrue) hpass
  have hstretch := Stretch.choose hparts hthen (.of_moves (.of_steps hpass))
  convert hstretch using 1
  simp
  omega

variable {labels : LoopLabels}

theorem whileLoop (hb : b = { onFalse := labels.onBreak, onTrue := labels.start })
    (htest : Tests m C R b test tested) (hbody : Realizes m C R (some labels) body code) :
    Realizes m C R loop (.loop test body id)
      ([Instr.label labels.onContinue] ++ tested ++ [Instr.label labels.start] ++ code ++
        [Instr.jump labels.onContinue, .label labels.onBreak]) := by
  subst hb
  intro whole pos hlabels hat
  have hat : whole.HasAt pos ([Instr.label labels.onContinue] ++ (tested ++ ([Instr.label labels.start] ++
      (code ++ ([Instr.jump labels.onContinue] ++ [Instr.label labels.onBreak]))))) := by simpa using hat
  have hhead := hat.left
  have hstart := hat.right.right.left
  have hjump := hat.right.right.right.right.left
  have hstop := hat.right.right.right.right.right
  have hloop : LoopAt m C R whole labels test body id pos _ _ _ :=
    { enter := Machine.advances_label hhead
      test := htest hlabels hat.right.left hstart hstop rfl
      body := (hbody hlabels hat.right.right.right.left).extend
        (Machine.steps_label hstart) fun _ => .refl
      again := .of_steps (Machine.steps_jump hlabels hjump hhead)
      onContinue := ⟨pos, hhead.goto hlabels, .of_steps fun _ => .refl⟩
      onBreak := hstop.goto hlabels }
  have hstretch := (hloop.stretch loop).extend (fun _ => .refl) (Machine.steps_label hstop)
  convert hstretch using 1
  simp
  omega

theorem doLoop (hb : b = { onFalse := labels.onBreak, onTrue := labels.start, reversed := true })
    (htest : Tests m C R b test tested) (hbody : Realizes m C R (some labels) body code) :
    Realizes m C R loop (.loopAfter test body)
      ([Instr.label labels.start] ++ code ++ [Instr.label labels.onContinue] ++ tested ++
        [Instr.label labels.onBreak]) := by
  subst hb
  intro whole pos hlabels hat
  have hat : whole.HasAt pos ([Instr.label labels.start] ++ (code ++ ([Instr.label labels.onContinue] ++
      (tested ++ [Instr.label labels.onBreak])))) := by simpa using hat
  have hstart := hat.left
  have hhead := hat.right.right.left
  have hstop := hat.right.right.right.right
  have hloop : LoopAt m C R whole labels test body id _ pos _ _ :=
    { enter := Machine.advances_label hhead
      test := htest hlabels hat.right.right.right.left hstart hstop rfl
      body := (hbody hlabels hat.right.left).extend
        (Machine.steps_label hstart) fun _ => .refl
      again := .of_steps fun _ => .refl
      onContinue := ⟨_, hhead.goto hlabels, .of_steps fun _ => .refl⟩
      onBreak := hstop.goto hlabels }
  have hstretch := (hloop.stretch_after loop).extend (fun _ => .refl) (Machine.steps_label hstop)
  convert hstretch using 1
  simp
  omega

theorem forRounds (onCondition : String) {step : Code}
    (hb : b = { onFalse := labels.onBreak, onTrue := labels.start })
    (htest : Tests m C R b test tested) (hbody : Realizes m C R (some labels) body code)
    (hstep : Makes m C R f step) :
    Realizes m C R loop (.loop test body f)
      ([Instr.label onCondition] ++ tested ++ [Instr.label labels.start] ++ code ++
        [Instr.label labels.onContinue] ++ step ++ [Instr.jump onCondition, .label labels.onBreak]) := by
  subst hb
  intro whole pos hlabels hat
  have hat : whole.HasAt pos ([Instr.label onCondition] ++ (tested ++ ([Instr.label labels.start] ++ (code ++
      ([Instr.label labels.onContinue] ++ (step ++ ([Instr.jump onCondition] ++
        [Instr.label labels.onBreak]))))))) := by simpa using hat
  have hhead := hat.left
  have hstart := hat.right.right.left
  have hnext := hat.right.right.right.right.left
  have hjump := hat.right.right.right.right.right.right.left
  have hstop := hat.right.right.right.right.right.right.right
  have hagain := (hstep.moves hlabels hat.right.right.right.right.right.left).extend
    (Machine.steps_label hnext) (Machine.steps_jump hlabels hjump hhead)
  have hloop : LoopAt m C R whole labels test body f pos _ _ _ :=
    { enter := Machine.advances_label hhead
      test := htest hlabels hat.right.left hstart hstop rfl
      body := (hbody hlabels hat.right.right.right.left).extend
        (Machine.steps_label hstart) fun _ => .refl
      again := hagain
      onContinue := ⟨_, hnext.goto hlabels, hagain⟩
      onBreak := hstop.goto hlabels }
  have hstretch := (hloop.stretch loop).extend (fun _ => .refl) (Machine.steps_label hstop)
  convert hstretch using 1
  simp
  omega

theorem forLoop {onCondition : String} {init step : Code} {f' : Memory → Memory}
    (hb : b = { onFalse := labels.onBreak, onTrue := labels.start }) (hinit : Makes m C R f' init)
    (htest : Tests m C R b test tested) (hbody : Realizes m C R (some labels) body code)
    (hstep : Makes m C R f step) :
    Realizes m C R loop (.seq (.update f') (.loop test body f))
      (init ++ [Instr.label onCondition] ++ tested ++ [Instr.label labels.start] ++ code ++
        [Instr.label labels.onContinue] ++ step ++ [Instr.jump onCondition, .label labels.onBreak]) := by
  have hloop : Realizes m C R loop _ _ :=
    hinit.realizes.seq (forRounds onCondition hb htest hbody hstep)
  simpa using hloop

end Realizes

end Code

end Flatword
