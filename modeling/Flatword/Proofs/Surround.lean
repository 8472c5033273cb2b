import Flatword.Proofs.Spared

/-!
# One step in the code of a statement

A statement may have one increment or decrement of a watched word behind a guard. It stands in the code
behind the test of the guard, or at the end of the statement. Whatever is around it in the source, the code
around it spares the watched word.
-/

namespace Flatword

/-- Code that spares a variable and jumps to its own labels or out by `E`, and code that is left for the
end and spares the variable as well. -/
structure Bystander (name : String) (E : Instr → Prop) (code queue : Code) : Prop where
  spares : code.Spares name
  closed : ∀ instr ∈ code, ∀ goal ∈ instr.goal?, goal ∈ code ∨ E goal
  queue : queue.Spares name

/-- A step of a variable, taken before its value or after, and how the test in front of it may look. -/
structure GuardedStep where
  step : Instr
  before : Bool
  tests : Instr → Prop

namespace GuardedStep

variable (k : GuardedStep) {name : String} {E F : Instr → Prop} {code code' queue queue' : Code}

/-- The step stands behind its test with nothing but labels between the two, and up to the test no jump
leads to one of these labels. All other code spares the variable. -/
def StandsIn (name : String) (E : Instr → Prop) (code : Code) : Prop :=
  ∃ (front : Code) (test : Instr) (marks : List String) (back : Code),
    code = front ++ test :: (marks.map .label ++ k.step :: back) ∧ k.tests test ∧
      Code.Spares (front ++ [test]) name ∧ back.Spares name ∧
      ∀ instr ∈ front ++ [test], ∀ goal ∈ instr.goal?, goal ∈ front ∨ goal ∈ back ∨ E goal

/-- The step is among the code that is left for the end, which spares the variable otherwise. -/
def WaitsIn (name : String) (queue : Code) : Prop :=
  ∃ front back : Code, queue = front ++ k.step :: back ∧ front.Spares name ∧ back.Spares name

/-- Where the step is found in the code of a part of a statement and in what that leaves for the end. -/
inductive Splits (name : String) (E : Instr → Prop) (code queue : Code) : Prop
  | standing (hbefore : k.before = true) (hcode : k.StandsIn name E code) (hqueue : queue.Spares name)
  | waiting (hbefore : k.before = false) (hcode : code.Spares name) (hqueue : k.WaitsIn name queue)

variable {k}

theorem StandsIn.enclose (h : k.StandsIn name E code) (pre suf : Code) (hpre : pre.Spares name)
    (hsuf : suf.Spares name) (hE : ∀ goal, E goal → goal ∈ pre ∨ goal ∈ suf ∨ F goal)
    (hgoals : ∀ instr ∈ pre, ∀ goal ∈ instr.goal?, goal ∈ pre ∨ goal ∈ suf ∨ F goal) :
    k.StandsIn name F (pre ++ code ++ suf) := by
  obtain ⟨front, test, marks, back, rfl, htest, hfront, hback, hgoal⟩ := h
  have hfound {goal : Instr} (h : goal ∈ pre ∨ goal ∈ suf ∨ F goal) :
      goal ∈ pre ++ front ∨ goal ∈ back ++ suf ∨ F goal := by
    simp only [List.mem_append]
    tauto
  refine ⟨pre ++ front, test, marks, back ++ suf, by simp, htest, ?_, ?_, fun instr hinstr goal hg => ?_⟩
  · rw [List.append_assoc]
    exact Code.spares_append.mpr ⟨hpre, hfront⟩
  · exact Code.spares_append.mpr ⟨hback, hsuf⟩
  · rw [List.append_assoc, List.mem_append] at hinstr
    rcases hinstr with hinstr | hinstr
    · exact hfound (hgoals instr hinstr goal hg)
    · rcases hgoal instr hinstr goal hg with hg | hg | hg
      · exact .inl (List.mem_append_right _ hg)
      · exact .inr (.inl (List.mem_append_left _ hg))
      · exact hfound (hE goal hg)

theorem WaitsIn.enclose (h : k.WaitsIn name queue) {pre suf : Code} (hpre : pre.Spares name)
    (hsuf : suf.Spares name) : k.WaitsIn name (pre ++ queue ++ suf) := by
  obtain ⟨front, back, rfl, hfront, hback⟩ := h
  exact ⟨pre ++ front, back ++ suf, by simp, Code.spares_append.mpr ⟨hpre, hfront⟩,
    Code.spares_append.mpr ⟨hback, hsuf⟩⟩

theorem Splits.enclose (h : k.Splits name E code queue) (pre suf : Code) (hpre : pre.Spares name)
    (hsuf : suf.Spares name) (hE : ∀ goal, E goal → goal ∈ pre ∨ goal ∈ suf ∨ F goal)
    (hgoals : ∀ instr ∈ pre, ∀ goal ∈ instr.goal?, goal ∈ pre ∨ goal ∈ suf ∨ F goal) :
    k.Splits name F (pre ++ code ++ suf) queue := by
  cases h with
  | standing hbefore hcode hqueue => exact .standing hbefore (hcode.enclose pre suf hpre hsuf hE hgoals) hqueue
  | waiting hbefore hcode hqueue => exact .waiting hbefore (by simp [hpre, hcode, hsuf]) hqueue

theorem Splits.mono (h : k.Splits name E code queue) (hE : ∀ goal, E goal → F goal) :
    k.Splits name F code queue := by
  have hcode := h.enclose (F := F) [] [] Code.spares_nil Code.spares_nil
    (fun goal hgoal => .inr (.inr (hE goal hgoal))) (by simp)
  simpa using hcode

theorem Splits.encloseQueue (h : k.Splits name E code queue) {pre suf : Code} (hpre : pre.Spares name)
    (hsuf : suf.Spares name) : k.Splits name E code (pre ++ queue ++ suf) := by
  cases h with
  | standing hbefore hcode hqueue => exact .standing hbefore hcode (by simp [hpre, hqueue, hsuf])
  | waiting hbefore hcode hqueue => exact .waiting hbefore hcode (hqueue.enclose hpre hsuf)

theorem Splits.after (h : k.Splits name E code' queue') (hplain : Bystander name E code queue) :
    k.Splits name E (code ++ code') (queue ++ queue') := by
  have hcode := (h.enclose (F := E) code [] hplain.spares Code.spares_nil (fun _ => .inr ∘ .inr)
    fun instr hinstr goal hgoal => (hplain.closed instr hinstr goal hgoal).imp_right .inr).encloseQueue
      hplain.queue Code.spares_nil
  simpa using hcode

theorem Splits.before (h : k.Splits name E code queue) (hplain : Bystander name E code' queue') :
    k.Splits name E (code ++ code') (queue ++ queue') := by
  have hcode := (h.enclose (F := E) [] code' Code.spares_nil hplain.spares (fun _ => .inr ∘ .inr)
    (by simp)).encloseQueue Code.spares_nil hplain.queue
  simpa using hcode

end GuardedStep

theorem Bystander.mono {name : String} {E F : Instr → Prop} {code queue : Code}
    (h : Bystander name E code queue) (hE : ∀ goal, E goal → F goal) : Bystander name F code queue :=
  ⟨h.spares, fun instr hinstr goal hgoal => (h.closed instr hinstr goal hgoal).imp_right (hE goal), h.queue⟩

theorem bystander_nil {name : String} {E : Instr → Prop} : Bystander name E [] [] :=
  ⟨Code.spares_nil, by simp, Code.spares_nil⟩

theorem Bystander.append {name : String} {E : Instr → Prop} {code code' queue queue' : Code}
    (h : Bystander name E code queue) (h' : Bystander name E code' queue') :
    Bystander name E (code ++ code') (queue ++ queue') where
  spares := Code.spares_append.mpr ⟨h.spares, h'.spares⟩
  closed instr hinstr goal hgoal := by
    rw [List.mem_append]
    rcases List.mem_append.mp hinstr with hinstr | hinstr
    · exact (h.closed instr hinstr goal hgoal).imp_left .inl
    · exact (h'.closed instr hinstr goal hgoal).imp_left .inr
  queue := Code.spares_append.mpr ⟨h.queue, h'.queue⟩

namespace Lower

variable {cause : Cause} {conflicts : Bool} {slot : Slot} {E : Instr → Prop}

open GuardedStep

variable {w : Watch} {k : GuardedStep} {α β γ : Type}

/-- A step of lowering whose code, together with what it leaves for the end, is of a kind. -/
def Lays (w : Watch) (P : Code → Code → Prop) (code : α → Code) (Q : α → Prop) (m : Lower α) : Prop :=
  ∀ ⦃f : Frame⦄ ⦃s : Scope⦄ ⦃v : α⦄ ⦃t : Scope⦄, f.function = w.function → w.leave.Tracks s → Gives m f s v t →
    w.leave.Tracks t ∧ Q v ∧ ∃ queue, t.post = s.post ++ queue ∧ P (code v) queue

section Rules

variable {P P' P'' : Code → Code → Prop} {code : α → Code} {code' : β → Code} {code'' : γ → Code}
  {Q : α → Prop} {R : β → Prop} {S : γ → Prop} {m : Lower α} {n : α → Lower β}

theorem Lays.bind (hm : Lays w P code Q m) (hn : ∀ a, Q a → Lays w P' code' R (n a)) {join : α → β → γ}
    (hcode : ∀ a b, code'' (join a b) = code a ++ code' b) (hS : ∀ a b, Q a → R b → S (join a b))
    (hP : ∀ {c q c' q'}, P c q → P' c' q' → P'' (c ++ c') (q ++ q')) :
    Lays w P'' code'' S (m >>= fun a => join a <$> n a) := by
  intro f s v t hf hs h
  obtain ⟨a, u, ha, h⟩ := gives_bind.mp h
  rw [← bind_pure_comp, gives_bind] at h
  obtain ⟨b, _, hb, h⟩ := h
  obtain ⟨rfl, rfl⟩ := gives_pure.mp h
  obtain ⟨hu, hQ, queue, hqueue, hcodes⟩ := hm hf hs ha
  obtain ⟨ht, hR, queue', hqueue', hcodes'⟩ := hn a hQ hf hu hb
  refine ⟨ht, hS a b hQ hR, queue ++ queue', ?_, ?_⟩
  · rw [hqueue', hqueue, List.append_assoc]
  · rw [hcode]
    exact hP hcodes hcodes'

theorem Lays.then (hm : Lays w P (fun _ : α => []) Q m) (hn : ∀ a, Q a → Lays w P' code' R (n a))
    (hP : ∀ {q c' q'}, P [] q → P' c' q' → P'' c' (q ++ q')) : Lays w P'' code' R (m >>= n) := by
  intro f s v t hf hs h
  obtain ⟨a, u, ha, h⟩ := gives_bind.mp h
  obtain ⟨hu, hQ, queue, hqueue, hcodes⟩ := hm hf hs ha
  obtain ⟨ht, hR, queue', hqueue', hcodes'⟩ := hn a hQ hf hu h
  refine ⟨ht, hR, queue ++ queue', ?_, hP hcodes hcodes'⟩
  rw [hqueue', hqueue, List.append_assoc]

theorem lays_pure {a : α} (hQ : Q a) (hP : P (code a) []) : Lays w P code Q (pure a) := by
  intro f s v t _ hs h
  obtain ⟨rfl, rfl⟩ := gives_pure.mp h
  exact ⟨hs, hQ, [], by simp, hP⟩

theorem lays_fail : Lays w P code Q (fail cause) :=
  fun _ _ _ _ _ _ h => absurd h gives_fail

theorem lays_fail_bind : Lays w P code' R ((fail cause : Lower α) >>= n) :=
  fun _ _ _ _ _ _ h => absurd (gives_bind.mp h).choose_spec.choose_spec.1 gives_fail

end Rules

/-! ## Bystanders -/

/-- The value of a part of a statement that has nothing to do with the watched word. -/
def Idle (w : Watch) (m : Lower Lowered) : Prop :=
  ∃ n, Values w.leave n m

def IdleBranch (w : Watch) (m : Branch → Lower Code) : Prop :=
  ∃ n, Branches w.leave n m

abbrev Tame (w : Watch) (m : Lower Lowered) : Prop :=
  Lays w (Bystander w.name fun _ => False) Lowered.code (fun v => w.ground.Backs v.slot) m

abbrev Hosts (w : Watch) (k : GuardedStep) (m : Lower Lowered) : Prop :=
  Lays w (k.Splits w.name fun _ => False) Lowered.code (fun v => w.ground.Backs v.slot) m

abbrev HostsBranch (w : Watch) (k : GuardedStep) (m : Branch → Lower Code) : Prop :=
  ∀ b, Lays w (k.Splits w.name b.Exits) id (fun _ => True) (m b)

theorem lays_of_pens {m : Lower α} {code : α → Code} {Q : α → Prop} {n : Nat}
    (h : ∀ j, w.leave.Pens j n m fun z v => (∃ i n, (code v).Made w.leave z E i n) ∧ Q v) :
    Lays w (Bystander w.name E) code Q m := by
  intro f s v t hf hs hm
  obtain ⟨ht, ⟨-, queue, hqueue, hwrites⟩, -, hv⟩ := h s.session.jumps hf hs rfl hm
  obtain ⟨⟨_, _, hmade⟩, hQ⟩ := hv t (.refl t)
  exact ⟨ht, hQ, queue, hqueue, hmade.spares, hmade.linked.closed, Code.spares_of_writes hwrites⟩

theorem Idle.tame {m : Lower Lowered} (h : Idle w m) : Tame w m := by
  obtain ⟨n, hvalues⟩ := h
  exact lays_of_pens fun j => (hvalues j).mono fun _ _ _ hv => ⟨⟨_, _, hv.2⟩, hv.1⟩

theorem IdleBranch.lays {m : Branch → Lower Code} (h : IdleBranch w m) (b : Branch) :
    Lays w (Bystander w.name b.Exits) id (fun _ => True) (m b) := by
  obtain ⟨n, hbranches⟩ := h
  exact lays_of_pens fun j => (hbranches b j).mono fun _ _ _ hcode => ⟨⟨_, _, hcode⟩, trivial⟩

theorem idle_pure (h : w.ground.Backs slot) : Idle w (pure ⟨slot, []⟩) :=
  ⟨0, fun j => Leave.quiet_pure (fun _ _ => ⟨h, .of_straight Leave.keeps_nil⟩) j⟩

theorem lays_of_quiet {m : Lower α} {code : α → Code} {Q : α → Prop}
    (h : w.leave.Quiet m fun z v => w.leave.Keeps z (code v) ∧ Q v) :
    Lays w (Bystander w.name E) code Q m :=
  lays_of_pens fun j => (h j).mono fun _ _ _ hv => ⟨⟨j, 0, .of_straight hv.1⟩, hv.2⟩

theorem tame_of_quiet {m : Lower Lowered} (h : w.leave.Quiet m (Backed w.leave)) : Tame w m :=
  lays_of_quiet (h.mono fun _ _ _ hv => ⟨hv.code, hv.backs⟩)

/-! ## Operators -/

/-- A value with code in front of it. -/
def Lowered.after (code : Code) (v : Lowered) : Lowered :=
  ⟨v.slot, code ++ v.code⟩

theorem Lowered.after_eq (code : Code) : Lowered.after code = fun v => ⟨v.slot, code ++ v.code⟩ := rfl

/-- An operator puts the code of its operand in front of its own and looks at nothing but its slot. -/
def Fronts {β : Type} (after : Code → β → β) (op : Lower Lowered → Lower β) : Prop :=
  ∀ m, op m = m >>= fun v => after v.code <$> op (pure ⟨v.slot, []⟩)

theorem fronts_lowerBinary_left (op : BinaryOp) (right : Lower Lowered) :
    Fronts .after fun left => lowerBinary op left right := by
  intro m
  simp [lowerBinary, Lowered.after_eq]

theorem fronts_lowerBinary_right (op : BinaryOp) (left : Slot) :
    Fronts .after fun right => lowerBinary op (pure ⟨left, []⟩) right := by
  intro m
  simp [lowerBinary, Lowered.after_eq]

theorem fronts_lowerDiscard : Fronts .after lowerDiscard := by
  intro m
  simp [lowerDiscard, Lowered.after_eq]

theorem fronts_lowerDeref : Fronts .after lowerDeref := by
  intro m
  refine bind_congr fun v => ?_
  simp only [lowerDeref, pure_bind, Lowered.after_eq]
  split <;> simp

theorem fronts_lowerComplement : Fronts .after lowerComplement := by
  intro m
  refine bind_congr fun v => ?_
  simp only [lowerComplement, foldConstant, pure_bind, Lowered.after_eq]
  split <;> simp

theorem fronts_lowerNegate : Fronts .after lowerNegate := by
  intro m
  refine bind_congr fun v => ?_
  simp only [lowerNegate, foldConstant, pure_bind, Lowered.after_eq]
  split <;> simp

theorem fronts_lowerAddressOf : Fronts .after lowerAddressOf := by
  intro m
  refine bind_congr fun v => ?_
  simp only [lowerAddressOf, pure_bind, Lowered.after_eq]
  split <;> simp

theorem fronts_lowerStep (up before : Bool) : Fronts .after (lowerStep up before) := by
  intro m
  refine bind_congr fun v => ?_
  simp only [lowerStep, pure_bind, Lowered.after_eq]
  split
  · split <;> simp
  · split <;> simp

theorem fronts_branchValue (b : Branch) : Fronts (· ++ ·) fun value => branchValue value b := by
  intro m
  simp [branchValue]

theorem fronts_branchCompare_left (op : Comparison) (right : Lower Lowered) (b : Branch) :
    Fronts (· ++ ·) fun left => branchCompare op left right b := by
  intro m
  simp only [branchCompare, pure_bind]
  refine bind_congr fun l => ?_
  simp only [map_bind]
  refine bind_congr fun r => bind_congr fun flat => ?_
  split <;> simp

theorem fronts_branchCompare_right (op : Comparison) (left : Slot) (b : Branch) :
    Fronts (· ++ ·) fun right => branchCompare op (pure ⟨left, []⟩) right b := by
  intro m
  simp only [branchCompare, pure_bind]
  refine bind_congr fun r => ?_
  simp only [map_bind]
  refine bind_congr fun flat => ?_
  split <;> simp

section Operators

variable {m : Lower Lowered} {op : Lower Lowered → Lower Lowered} {test : Lower Lowered → Lower Code}
  {Q : Slot → Prop}

theorem Fronts.hosts (h : Fronts .after op)
    (hm : Lays w (k.Splits w.name fun _ => False) Lowered.code (fun v => Q v.slot) m)
    (hop : ∀ slot, Q slot → Idle w (op (pure ⟨slot, []⟩))) : Hosts w k (op m) := by
  rw [h m]
  exact hm.bind (fun v hv => (hop v.slot hv).tame) (fun _ _ => rfl) (fun _ _ _ hr => hr)
    fun hv hr => hv.before hr

theorem Fronts.hosts_after (h : Fronts .after op)
    (hm : Lays w (Bystander w.name fun _ => False) Lowered.code (fun v => Q v.slot) m)
    (hop : ∀ slot, Q slot → Hosts w k (op (pure ⟨slot, []⟩))) : Hosts w k (op m) := by
  rw [h m]
  exact hm.bind (fun v hv => hop v.slot hv) (fun _ _ => rfl) (fun _ _ _ hr => hr)
    fun hv hr => hr.after hv

theorem Fronts.hosts_test (h : Fronts (· ++ ·) test) (hm : Hosts w k m)
    (htest : ∀ slot, w.ground.Backs slot →
      Lays w (Bystander w.name E) id (fun _ => True) (test (pure ⟨slot, []⟩))) :
    Lays w (k.Splits w.name E) id (fun _ => True) (test m) := by
  rw [h m]
  exact hm.bind (fun v hv => htest v.slot hv) (fun _ _ => rfl) (fun _ _ _ _ => trivial)
    fun hv hr => (hv.mono fun _ => False.elim).before hr

theorem Fronts.hosts_test_after (h : Fronts (· ++ ·) test) (hm : Idle w m)
    (htest : ∀ slot, w.ground.Backs slot →
      Lays w (k.Splits w.name E) id (fun _ => True) (test (pure ⟨slot, []⟩))) :
    Lays w (k.Splits w.name E) id (fun _ => True) (test m) := by
  rw [h m]
  exact hm.tame.bind (fun v hv => htest v.slot hv) (fun _ _ => rfl) (fun _ _ _ _ => trivial)
    fun hv hr => hr.after (hv.mono fun _ => False.elim)

variable (hg : w.leave.Fair) {left right operand : Lower Lowered}

include hg

theorem hosts_branchValue (h : Hosts w k operand) : HostsBranch w k (branchValue operand) := by
  intro b
  refine (fronts_branchValue b).hosts_test h fun slot hslot => ?_
  obtain ⟨n, hvalues⟩ := idle_pure hslot
  exact IdleBranch.lays ⟨n, branches_branchValue hg hvalues⟩ b

theorem idle_branchCompare {op : Comparison} (hleft : Idle w left) (hright : Idle w right) :
    IdleBranch w (branchCompare op left right) := by
  obtain ⟨n, hvalues⟩ := hleft
  obtain ⟨n', hvalues'⟩ := hright
  exact ⟨_, branches_branchCompare hg op hvalues hvalues'⟩

theorem hosts_branchCompare_left {op : Comparison} (hleft : Hosts w k left) (hright : Idle w right) :
    HostsBranch w k (branchCompare op left right) := by
  intro b
  refine (fronts_branchCompare_left op right b).hosts_test hleft fun slot hslot => ?_
  exact (idle_branchCompare hg (idle_pure hslot) hright).lays b

theorem hosts_branchCompare_right {op : Comparison} (hleft : Idle w left) (hright : Hosts w k right) :
    HostsBranch w k (branchCompare op left right) := by
  intro b
  refine (fronts_branchCompare_left op right b).hosts_test_after hleft fun slot hslot => ?_
  refine (fronts_branchCompare_right op slot b).hosts_test hright fun slot' hslot' => ?_
  exact (idle_branchCompare hg (idle_pure hslot) (idle_pure hslot')).lays b

theorem idle_lowerBinary {op : BinaryOp} (hleft : Idle w left) (hright : Idle w right) :
    Idle w (lowerBinary op left right) := by
  obtain ⟨n, hvalues⟩ := hleft
  obtain ⟨n', hvalues'⟩ := hright
  exact ⟨_, values_lowerBinary hg op hvalues hvalues'⟩

theorem hosts_lowerBinary_left {op : BinaryOp} (hleft : Hosts w k left) (hright : Idle w right) :
    Hosts w k (lowerBinary op left right) :=
  (fronts_lowerBinary_left op right).hosts hleft fun _ hslot =>
    idle_lowerBinary hg (idle_pure hslot) hright

theorem hosts_lowerBinary_right {op : BinaryOp} (hleft : Idle w left) (hright : Hosts w k right) :
    Hosts w k (lowerBinary op left right) :=
  (fronts_lowerBinary_left op right).hosts_after hleft.tame fun _ hslot =>
    (fronts_lowerBinary_right op _).hosts hright fun _ hslot' =>
      idle_lowerBinary hg (idle_pure hslot) (idle_pure hslot')

omit hg in
theorem hosts_lowerDiscard (h : Hosts w k operand) : Hosts w k (lowerDiscard operand) := by
  refine fronts_lowerDiscard.hosts h fun slot hslot => ?_
  obtain ⟨n, hvalues⟩ := idle_pure hslot
  exact ⟨n, values_lowerDiscard hvalues⟩

theorem hosts_lowerDeref (h : Hosts w k operand) : Hosts w k (lowerDeref operand) := by
  refine fronts_lowerDeref.hosts h fun slot hslot => ?_
  obtain ⟨n, hvalues⟩ := idle_pure hslot
  exact ⟨n, values_lowerDeref hg hvalues⟩

theorem hosts_lowerComplement (h : Hosts w k operand) : Hosts w k (lowerComplement operand) := by
  refine fronts_lowerComplement.hosts h fun slot hslot => ?_
  obtain ⟨n, hvalues⟩ := idle_pure hslot
  exact ⟨n, values_lowerComplement hg hvalues⟩

theorem hosts_lowerNegate (h : Hosts w k operand) : Hosts w k (lowerNegate operand) := by
  refine fronts_lowerNegate.hosts h fun slot hslot => ?_
  obtain ⟨n, hvalues⟩ := idle_pure hslot
  exact ⟨n, values_lowerNegate hg hvalues⟩

theorem hosts_lowerAddressOf (h : Hosts w k operand) : Hosts w k (lowerAddressOf operand) := by
  refine fronts_lowerAddressOf.hosts h fun slot hslot => ?_
  obtain ⟨n, hvalues⟩ := idle_pure hslot
  exact ⟨n, values_lowerAddressOf hg hvalues⟩

end Operators

/-! ## Conditions -/

theorem lays_newJump : Lays w (Bystander w.name E) (fun _ => []) (fun _ => True) newJump :=
  lays_of_pens fun j => (pens_newJump j).mono fun _ _ _ _ =>
    ⟨⟨j, 0, .of_straight Leave.keeps_nil⟩, trivial⟩

theorem lays_allocate (hg : w.leave.Fair) :
    Lays w (Bystander w.name E) (fun _ => [])
      (fun slot => w.ground.Lists slot ∧ w.leave.Takes slot ∧ slot.asmName ≠ w.name) allocate :=
  lays_of_quiet ((quiet_allocate hg).mono fun _ _ _ h => ⟨Leave.keeps_nil, h.lists, h.takes, h.writable⟩)

theorem lays_assign (hg : w.leave.Fair) {left right : Slot} (htakes : w.leave.Takes left)
    (hleft : w.ground.Backs left) (hright : w.ground.Backs right) :
    Lays w (Bystander w.name E) id (fun _ => True) (assign left right) :=
  lays_of_quiet ((quiet_assign hg left right).mono fun _ _ _ h => ⟨h htakes hleft hright, trivial⟩)

theorem hosts_materialize (hg : w.leave.Fair) {condition : Branch → Lower Code}
    (h : HostsBranch w k condition) : Hosts w k (materialize condition) := by
  intro f s v t hf hs hv
  simp only [materialize, gives_bind, gives_pure] at hv
  obtain ⟨id, s₁, hid, code, s₂, hcode, scratch, s₃, hscratch, one, s₄, hone, rfl, rfl⟩ := hv
  obtain ⟨hs₁, -, q₁, hq₁, hplain₁⟩ := lays_newJump (E := fun _ => False) hf hs hid
  obtain ⟨hs₂, -, q₂, hq₂, hsplits⟩ := h _ hf hs₁ hcode
  obtain ⟨hs₃, ⟨hlists, htakes, hname⟩, q₃, hq₃, hplain₃⟩ :=
    lays_allocate hg (E := fun _ => False) hf hs₂ hscratch
  obtain ⟨hs₄, -, q₄, hq₄, hplain₄⟩ := lays_assign hg (E := fun _ => False) htakes hlists.backs
    (Ground.backs_constant _) hf hs₃ hone
  refine ⟨hs₄, hlists.backs, q₁ ++ q₂ ++ (q₃ ++ q₄), ?_, ?_⟩
  · rw [hq₄, hq₃, hq₂, hq₁]
    simp only [List.append_assoc]
  have hsuf : Code.Spares ([Instr.label s!"__CMP_{id}_true"] ++ one ++ [Instr.jump s!"__CMP_{id}_end",
      .label s!"__CMP_{id}_false", .clear scratch.asmName, .label s!"__CMP_{id}_end"]) w.name := by
    have hone : one.Spares w.name := hplain₄.spares
    simp [hone, Instr.written?, hname]
  have hdone := (hsplits.enclose (F := fun _ => False) [] _ Code.spares_nil hsuf
    (by rintro goal (rfl | rfl) <;> exact .inr (.inl (by simp))) (by simp)).encloseQueue hplain₁.queue
      (Code.spares_append.mpr ⟨hplain₃.queue, hplain₄.queue⟩)
  simpa using hdone

/-- How a connective is put together: the branch of its left operand, the labels between the operands
and what follows the right one. The test of the left operand does not jump to the labels between. -/
structure Connects (op : LogicalOp) (b first : Branch) (marks : List String) (last : Code) : Prop where
  reversed : first.reversed = decide (op = .or)
  target : .label first.target ∈ last ∨ b.Exits (.label first.target)
  exits : ∀ goal, first.Exits goal → goal ∈ marks.map Instr.label ∨ goal ∈ last ∨ b.Exits goal
  spares : ∀ name, last.Spares name

theorem branchLogical_gives {op : LogicalOp} {left right : Branch → Lower Code} {b : Branch} {f : Frame}
    {s t : Scope} {code : Code} (h : Gives (branchLogical op left right b) f s code t) :
    ∃ id s₁ first front s₂ marks back last, Gives newJump f s id s₁ ∧ Gives (left first) f s₁ front s₂ ∧
      Gives (right b) f s₂ back t ∧ Connects op b first marks last ∧
      code = front ++ marks.map Instr.label ++ back ++ last := by
  simp only [branchLogical, gives_bind] at h
  obtain ⟨id, s₁, hid, h⟩ := h
  split at h <;> simp only [gives_bind, gives_pure] at h <;>
    obtain ⟨front, s₂, hfront, back, s₃, hback, rfl, rfl⟩ := h
  · next hr =>
    refine ⟨id, s₁, _, front, s₂, [s!"__AND_{id}_next"], back, [.jump b.onTrue], hid, hfront, hback,
      ⟨hr, ?_, ?_, by simp [Instr.written?]⟩, by simp⟩
    · simp [Branch.target, hr, Branch.Exits]
    · rintro goal (rfl | rfl) <;> simp [Branch.Exits]
  · next hr =>
    refine ⟨id, s₁, _, front, s₂, [s!"__OR_{id}_next"], back, [.jump b.onTrue], hid, hfront, hback,
      ⟨rfl, ?_, ?_, by simp [Instr.written?]⟩, by simp⟩
    · simp [Branch.target, Branch.Exits]
    · rintro goal (rfl | rfl) <;> simp [Branch.Exits]
  · next hr =>
    refine ⟨id, s₁, _, front, s₂, [], back, [.label s!"__AND_{id}_next"], hid, hfront, hback,
      ⟨rfl, ?_, ?_, by simp [Instr.written?]⟩, by simp⟩
    · simp [Branch.target]
    · rintro goal (rfl | rfl) <;> simp [Branch.Exits]
  · next hr =>
    refine ⟨id, s₁, _, front, s₂, [], back, [], hid, hfront, hback, ⟨hr, ?_, ?_, by simp⟩, by simp⟩
    · simp [Branch.target, hr, Branch.Exits]
    · rintro goal (rfl | rfl) <;> simp [Branch.Exits]

theorem spares_labels (marks : List String) (name : String) :
    Code.Spares (marks.map Instr.label) name := by
  intro instr hinstr
  obtain ⟨mark, -, rfl⟩ := List.mem_map.mp hinstr
  simp [Instr.written?]

theorem hosts_branchLogical_left {op : LogicalOp} {left right : Branch → Lower Code}
    (hleft : HostsBranch w k left) (hright : IdleBranch w right) :
    HostsBranch w k (branchLogical op left right) := by
  intro b f s code t hf hs h
  obtain ⟨id, s₁, first, front, s₂, marks, back, last, hid, hfront, hback, hconnects, rfl⟩ :=
    branchLogical_gives h
  obtain ⟨hs₁, -, q₁, hq₁, hplain₁⟩ := lays_newJump (E := fun _ => False) hf hs hid
  obtain ⟨hs₂, -, q₂, hq₂, hsplits⟩ := hleft first hf hs₁ hfront
  obtain ⟨ht, -, q₃, hq₃, hplain₃⟩ := hright.lays b hf hs₂ hback
  refine ⟨ht, trivial, q₁ ++ q₂ ++ q₃, ?_, ?_⟩
  · rw [hq₃, hq₂, hq₁, List.append_assoc, List.append_assoc, List.append_assoc]
  have hsuf : Code.Spares (marks.map Instr.label ++ back ++ last) w.name := by
    have hback : back.Spares w.name := hplain₃.spares
    simp [spares_labels, hback, hconnects.spares]
  have hdone := (hsplits.enclose (F := b.Exits) [] _ Code.spares_nil hsuf ?_ (by simp)).encloseQueue
    hplain₁.queue hplain₃.queue
  · simpa using hdone
  · intro goal hgoal
    have hexits := hconnects.exits goal hgoal
    simp only [List.mem_append]
    tauto

theorem hosts_branchLogical_right {op : LogicalOp} {left right : Branch → Lower Code}
    (hleft : IdleBranch w left) (hright : HostsBranch w k right) :
    HostsBranch w k (branchLogical op left right) := by
  intro b f s code t hf hs h
  obtain ⟨id, s₁, first, front, s₂, marks, back, last, hid, hfront, hback, hconnects, rfl⟩ :=
    branchLogical_gives h
  obtain ⟨hs₁, -, q₁, hq₁, hplain₁⟩ := lays_newJump (E := fun _ => False) hf hs hid
  obtain ⟨hs₂, -, q₂, hq₂, hplain₂⟩ := hleft.lays first hf hs₁ hfront
  obtain ⟨ht, -, q₃, hq₃, hsplits⟩ := hright b hf hs₂ hback
  refine ⟨ht, trivial, q₁ ++ q₂ ++ q₃, ?_, ?_⟩
  · rw [hq₃, hq₂, hq₁, List.append_assoc, List.append_assoc, List.append_assoc]
  have hpre : Code.Spares (front ++ marks.map Instr.label) w.name :=
    Code.spares_append.mpr ⟨hplain₂.spares, spares_labels _ _⟩
  have hdone := (hsplits.enclose (F := b.Exits) _ _ hpre (hconnects.spares _) (fun _ => .inr ∘ .inr) ?_).encloseQueue
    (Code.spares_append.mpr ⟨hplain₁.queue, hplain₂.queue⟩) Code.spares_nil
  · simpa using hdone
  · -- Labels between the operands jump nowhere, and the left operand leaves by them or by the branch.
    intro instr hinstr goal hgoal
    rcases List.mem_append.mp hinstr with hinstr | hinstr
    · rcases hplain₂.closed instr hinstr goal hgoal with hmem | hexit
      · exact .inl (List.mem_append_left _ hmem)
      · rcases hconnects.exits goal hexit with hmem | hmem | hmem
        · exact .inl (List.mem_append_right _ hmem)
        · exact .inr (.inl hmem)
        · exact .inr (.inr hmem)
    · obtain ⟨mark, -, rfl⟩ := List.mem_map.mp hinstr
      simp [Instr.goal?] at hgoal

/-! ## Stores -/

def Evades (w : Watch) (target : Expr) : Prop :=
  ∀ ⦃f : Frame⦄ ⦃s : Scope⦄ ⦃place : Lowered⦄ ⦃t : Scope⦄, f.function = w.function → s.ground = w.ground →
    Gives (lowerTarget target.namesPlace target.lowering.value) f s place t → w.leave.Takes place.slot

theorem lays_lowerTarget (hg : w.leave.Fair) {target : Expr} {P : Code → Code → Prop} (hevades : Evades w target)
    (h : Lays w P Lowered.code (fun v => w.ground.Backs v.slot) target.lowering.value) :
    Lays w P Lowered.code (fun v => Target w.leave v.slot)
      (lowerTarget target.namesPlace target.lowering.value) := by
  intro f s place t hf hs hplace
  have htakes := hevades hf hs.ground hplace
  have hanchored := lowerTarget_anchored hplace
  obtain ⟨hu, hbacks, queue, hqueue, hcodes⟩ :=
    h (f := { f with leftSide := true }) hf hs (lowerTarget_gives hplace).2.1
  refine ⟨hu, ⟨hbacks, htakes, fun hplain => ?_⟩, queue, hqueue, hcodes⟩
  have hmem : s.Knows place.slot := hanchored (Slot.offset_of_isPlain hplain)
  exact hg.plain _ (hs.ground ▸ hmem) hplain htakes

theorem targets_pure (h : Target w.leave slot) : Targets w.leave 0 (pure ⟨slot, []⟩) :=
  fun j => Leave.quiet_pure (fun _ _ => ⟨h, .of_straight Leave.keeps_nil⟩) j

def storeAfter (op : Option BinaryOp) (target value : Slot) : Lower Lowered := do
  if value.kind = .void then
    fail .voidInAssignment
  let code ←
    match op with
    | none => storeValue target value
    | some op => updateTarget op target value
  return ⟨target, code⟩

theorem fronts_lowerAssign (op : Option BinaryOp) (conflicts : Bool) (value : Lower Lowered) :
    Fronts .after fun target => lowerAssign op conflicts target value := by
  intro m
  simp only [lowerAssign, pure_bind]
  refine bind_congr fun place => ?_
  simp only [map_bind]
  refine bind_congr fun _ => bind_congr fun v => ?_
  split <;> cases op <;> simp [Lowered.after_eq]

theorem lowerAssign_pure (op : Option BinaryOp) (conflicts : Bool) (target : Slot) (value : Lower Lowered) :
    lowerAssign op conflicts (pure ⟨target, []⟩) value =
      reserveTarget (op.isNone && !conflicts) target >>= fun _ => value >>= fun v =>
        Lowered.after v.code <$> storeAfter op target v.slot := by
  simp only [lowerAssign, pure_bind]
  refine bind_congr fun _ => bind_congr fun v => ?_
  unfold storeAfter
  split <;> cases op <;> simp [Lowered.after_eq]

theorem tame_storeAfter (hg : w.leave.Fair) {op : Option BinaryOp} {target value : Slot}
    (htarget : Target w.leave target) (hvalue : w.ground.Backs value) :
    Tame w (storeAfter op target value) := by
  have hstore {store : Lower Code} (h : w.leave.Quiet store fun z code =>
      w.leave.Takes target → w.ground.Backs target → w.ground.Backs value → w.leave.Keeps z code) :
      Tame w (store >>= fun code => pure ⟨target, code⟩) :=
    tame_of_quiet (h.bindQuiet fun code => Leave.quiet_pure fun _ _ hcode =>
      ⟨htarget.backs, hcode htarget.takes htarget.backs hvalue⟩)
  unfold storeAfter
  cases op with
  | none =>
    dsimp only
    split
    · exact lays_fail_bind
    · exact hstore (quiet_storeValue hg target value)
  | some op =>
    dsimp only
    split
    · exact lays_fail_bind
    · exact hstore (quiet_updateTarget hg op target value)

section Stores

variable (hg : w.leave.Fair) {target value : Expr}

include hg

theorem hosts_lowerAssign_target {op : Option BinaryOp} {value : Lower Lowered}
    (hevades : Evades w target) (htarget : Hosts w k target.lowering.value) (hvalue : Idle w value) :
    Hosts w k (lowerAssign op conflicts (lowerTarget target.namesPlace target.lowering.value) value) := by
  refine (fronts_lowerAssign op conflicts value).hosts (lays_lowerTarget hg hevades htarget) fun slot hslot => ?_
  obtain ⟨n, hvalues⟩ := hvalue
  exact ⟨_, values_lowerAssign hg op conflicts (targets_pure hslot) hvalues⟩

theorem hosts_lowerAssign_value {op : Option BinaryOp} {value : Lower Lowered}
    (hevades : Evades w target) (htarget : Idle w target.lowering.value) (hvalue : Hosts w k value) :
    Hosts w k (lowerAssign op conflicts (lowerTarget target.namesPlace target.lowering.value) value) := by
  refine (fronts_lowerAssign op conflicts value).hosts_after (lays_lowerTarget hg hevades htarget.tame)
    fun slot hslot => ?_
  rw [lowerAssign_pure]
  have hreserve : Lays w (Bystander w.name fun _ => False) (fun _ => []) (fun _ => True)
      (reserveTarget (op.isNone && !conflicts) slot) :=
    lays_of_quiet ((quiet_reserveTarget hslot _).mono fun _ _ _ _ => ⟨Leave.keeps_nil, trivial⟩)
  have hstored : Hosts w k (value >>= fun v => Lowered.after v.code <$> storeAfter op slot v.slot) :=
    hvalue.bind (fun v hv => tame_storeAfter hg hslot hv) (fun _ _ => rfl) (fun _ _ _ hr => hr)
      fun hv hr => hv.before hr
  exact hreserve.then (fun _ _ => hstored) fun hq hcodes => hcodes.after hq

theorem hosts_lowerStep {up before : Bool} (hevades : Evades w target)
    (htarget : Hosts w k target.lowering.value) :
    Hosts w k (lowerStep up before (lowerTarget target.namesPlace target.lowering.value)) := by
  refine (fronts_lowerStep up before).hosts (lays_lowerTarget hg hevades htarget) fun slot hslot => ?_
  exact ⟨0, values_lowerStep hg up before (targets_pure hslot)⟩

end Stores

end Lower

end Flatword
