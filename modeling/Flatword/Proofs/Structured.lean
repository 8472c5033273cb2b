import Flatword.Proofs.Behaviour
import Flatword.Proofs.Sentence
import Flatword.Proofs.Weave

/-!
# The meaning of structured units

Units of assignments to plain variables, conditionals and loops have a meaning without jumps. The code that
is emitted for a unit runs to its end exactly where this meaning gives a memory, and with that memory but for
the registers.
-/

namespace Flatword

/-! ## The meaning of statements -/

namespace Stmt

section Meaning

variable (alu : Alu) (vars : String → Option Nat)

def perform (e : Option Expr) (μ : Memory) : Memory :=
  e.elim μ (Expr.perform alu vars μ)

/-- Whether a condition holds; one that is missing does. -/
def holds (e : Option Expr) (μ : Memory) : Bool :=
  e.elim true (Expr.holds alu vars μ)

mutual

/-- The meaning of a statement over assignments, conditionals and loops. -/
def exec : Stmt → Behaviour
  | expression e => .update (perform alu vars (some e))
  | declaration _ | structDefinition _ _ _ => .update id
  | ifElse e thenBranch elseBranch _ =>
    .choose (holds alu vars (some e)) (execBlock thenBranch) (execElse elseBranch)
  | whileLoop e body _ => .loop (holds alu vars (some e)) (execBlock body) id
  | doLoop body e _ => .loopAfter (holds alu vars (some e)) (execBlock body)
  | forLoop init e step body _ =>
    .seq (.update (perform alu vars init))
      (.loop (holds alu vars e) (execBlock body) (perform alu vars step))
  | breakLoop _ => .leave .broken
  | continueLoop _ => .leave .continued
  | block body => execBlock body
  | _ => fun _ _ _ => False

def execBlock : List Stmt → Behaviour
  | [] => .update id
  | stmt :: rest => .seq stmt.exec (execBlock rest)

def execElse : Option (List Stmt) → Behaviour
  | none => .update id
  | some body => execBlock body

end

end Meaning

/-- A condition over pure expressions in which no connective can jump past its right operand. Without
connectives this is always so. -/
structure IsTest (vars : String → Option Nat) (e : Expr) (reversed : Bool) : Prop where
  condition : e.IsCondition (Expr.IsPure vars ∅)
  straight : e.isStraight reversed = true

/-- Statements over assignments of pure expressions to plain variables. -/
inductive IsStructured (vars : String → Option Nat) : Stmt → Prop
  | expression {e} (h : e.IsAssignment vars ∅) : IsStructured vars (.expression e)
  | declaration (tokens : List Token) : IsStructured vars (.declaration tokens)
  | structDefinition (name : String) (members : List Token) (line : Line) :
      IsStructured vars (.structDefinition name members line)
  | ifElse {e thenBranch elseBranch line}
      (he : IsTest vars e false) (hthen : ∀ stmt ∈ thenBranch, IsStructured vars stmt)
      (helse : ∀ body ∈ elseBranch, ∀ stmt ∈ body, IsStructured vars stmt) :
      IsStructured vars (.ifElse e thenBranch elseBranch line)
  | whileLoop {e body line} (he : IsTest vars e false)
      (hbody : ∀ stmt ∈ body, IsStructured vars stmt) : IsStructured vars (.whileLoop e body line)
  | doLoop {e body line} (he : IsTest vars e true)
      (hbody : ∀ stmt ∈ body, IsStructured vars stmt) : IsStructured vars (.doLoop body e line)
  | forLoop {init e step body line}
      (hinit : ∀ x ∈ init, x.IsAssignment vars ∅) (he : ∀ x ∈ e, IsTest vars x false)
      (hstep : ∀ x ∈ step, x.IsAssignment vars ∅) (hbody : ∀ stmt ∈ body, IsStructured vars stmt) :
      IsStructured vars (.forLoop init e step body line)
  | breakLoop (line : Line) : IsStructured vars (.breakLoop line)
  | continueLoop (line : Line) : IsStructured vars (.continueLoop line)
  | block {body} (hbody : ∀ stmt ∈ body, IsStructured vars stmt) :
      IsStructured vars (.block body)

mutual

def numbers : Stmt → Nat
  | ifElse e thenBranch elseBranch _ =>
    e.connectives + blockNumbers thenBranch + elseNumbers elseBranch + 1
  | whileLoop e body _ => e.connectives + blockNumbers body + 1
  | doLoop body e _ => blockNumbers body + e.connectives + 1
  | forLoop _ e _ body _ => e.elim 0 Expr.connectives + blockNumbers body + 1
  | block body => blockNumbers body
  | _ => 0

def blockNumbers : List Stmt → Nat
  | [] => 0
  | stmt :: rest => stmt.numbers + blockNumbers rest

def elseNumbers : Option (List Stmt) → Nat
  | none => 0
  | some body => blockNumbers body

end

end Stmt

/-! ## Sessions without constants -/

/-- A session whose words a machine has, and in which no variable stands for a constant. -/
structure Session.Prepared (m : Machine) (s : Session) : Prop where
  sound : s.table.Sound
  has : m.Has s.table
  contents : ∀ slot ∈ s.table.slots, slot.content ≠ none → slot.kind = .array

namespace Session

variable {m : Machine} {s t : Session}

theorem slots_of_plan (h : t.plan = s.plan) :
    t.table.slots.map Slot.unmarked = s.table.slots.map Slot.unmarked :=
  congrArg Table.slots h

theorem bare_of_plan (h : t.plan = s.plan) : t.table.bare = s.table.bare := by
  have hbare (s : Session) : s.plan.bare = s.table.bare := by
    simp [plan, Table.bare, Function.comp_def, Slot.unmarked, Slot.bare]
  rw [← hbare, h, hbare]

theorem exists_unmarked {slot : Slot} (h : t.plan = s.plan) (hslot : slot ∈ t.table.slots) :
    ∃ x ∈ s.table.slots, x.unmarked = slot.unmarked := by
  have hmem : slot.unmarked ∈ s.table.slots.map Slot.unmarked :=
    slots_of_plan h ▸ List.mem_map_of_mem hslot
  exact List.mem_map.mp hmem

theorem Prepared.congr (hs : s.Prepared m) (h : t.plan = s.plan) : t.Prepared m where
  sound := Table.sound_bare.mp (bare_of_plan h ▸ Table.sound_bare.mpr hs.sound)
  has slot hslot hk := by
    obtain ⟨x, hx, heq⟩ := exists_unmarked h hslot
    have hname := congrArg Slot.asmName heq
    have hkind := congrArg Slot.kind heq
    have haddress := congrArg Slot.address heq
    have hx := hs.has x hx (hkind.trans_ne hk)
    exact hname ▸ hx.trans haddress
  contents slot hslot hcontent := by
    obtain ⟨x, hx, heq⟩ := exists_unmarked h hslot
    have hkind := congrArg Slot.kind heq
    have hsame := congrArg Slot.content heq
    exact hkind ▸ hs.contents x hx (hsame.trans_ne hcontent)

theorem scratch_start (s : Session) : (Scope.start s).scratch = (Scope.start s).registers := by
  ext a
  simp [Scope.scratch, Scope.start, Reuse.target?]

theorem Prepared.ready (hs : s.Prepared m) : (Scope.start s).Ready m :=
  Scope.ready_start hs.sound hs.has fun slot hslot hcontent => by
    simp [hs.contents slot hslot hcontent]

theorem long?_of_plan (h : t.plan = s.plan) :
    (Scope.start t).ground.long? = (Scope.start s).ground.long? := by
  funext function name
  have hslots : (Scope.start t).ground.slots = (Scope.start s).ground.slots := slots_of_plan h
  simp only [Ground.long?, Ground.find?, hslots]

theorem registers_of_plan (h : t.plan = s.plan) :
    (Scope.start t).registers = (Scope.start s).registers := by
  have hregisters (s : Session) : (Scope.start s).ground.registers.map Slot.address =
      (s.plan.slots.filter (isRegisterName ·.asmName)).map Slot.address := by
    rw [Scope.registers_start, Table.registers, plan, List.filter_map, List.map_map]
    rfl
  simp only [Scope.registers, hregisters, h]

theorem holdIn_of_plan (h : t.plan = s.plan) :
    (Scope.start t).ground.HoldIn = (Scope.start s).ground.HoldIn := by
  have hslots : (Scope.start t).ground.slots = (Scope.start s).ground.slots := slots_of_plan h
  have hnames (slot : Slot) (w : Word) :
      (Scope.start t).ground.Names slot w ↔ (Scope.start s).ground.Names slot w :=
    ⟨fun h => ⟨hslots ▸ h.mem, h.content, h.name⟩, fun h => ⟨hslots ▸ h.mem, h.content, h.name⟩⟩
  funext μ
  simp only [Ground.HoldIn, hnames]

theorem Prepared.long_apart (hs : s.Prepared m) {function : Option String} {name : String} {a : Nat}
    (h : (Scope.start s).ground.long? function name = some a) :
    a ∉ (Scope.start s).registers ∧
      ∀ slot w, (Scope.start s).ground.Names slot w → slot.address ≠ some a := by
  obtain ⟨x, hx, -, hkind, haddress⟩ := exists_long h
  constructor
  · intro hmem
    have hmem : some a ∈ (Scope.start s).ground.registers.map Slot.address := hmem
    rw [Scope.registers_start] at hmem
    obtain ⟨r, hr, hra⟩ := List.mem_map.mp hmem
    obtain ⟨hr, hkr⟩ := hs.sound.kind_of_mem_registers hr
    have heq := hs.sound.eq_of_address hr hx (by simp [hkr]) (by simp [hkind])
      (hra.trans haddress.symm)
    simp [heq, hkind] at hkr
  · intro slot w hnames ha
    obtain ⟨y, hy, rfl⟩ := List.mem_map.mp hnames.mem
    have hcontent : y.content = some (Hex.ofWord w) := hnames.content
    have hky := hs.contents y hy (by simp [hcontent])
    have heq := hs.sound.eq_of_address hy hx (by simp [hky]) (by simp [hkind])
      (show y.address = x.address from Eq.trans ha haddress.symm)
    simp [heq, hkind] at hky

end Session

/-! ## Clauses of structured statements -/

theorem Expr.IsPure.avoids {vars : String → Option Nat} {S : Set Nat} {e : Expr}
    (h : e.IsPure vars ∅) (hS : ∀ name a, vars name = some a → a ∉ S) : e.IsPure vars S := by
  induction h with
  | operand h =>
    refine .operand ?_
    cases h with
    | constant hw => exact .constant hw
    | lookup ha _ => exact .lookup ha (hS _ _ ha)
  | neg _ ih => exact .neg ih
  | bitNot _ ih => exact .bitNot ih
  | binary _ _ ihl ihr => exact .binary ihl ihr

theorem Expr.IsPure.isValue {vars : String → Option Nat} {S : Set Nat} {e : Expr}
    (h : e.IsPure vars S) : e.isValue = true := by
  cases h with
  | operand h =>
    cases h with
    | constant hw => simp [Expr.isValue, hw]
    | lookup => rfl
  | neg | bitNot | binary => rfl

namespace Lower

variable {m : Machine} {f : Frame} {s : Session} {t : Scope} {code : Code}

/-- The code of an expression statement, where no target has been allowed to serve as a scratch place. -/
def plainEffect (e : Expr) : Lower Code := do
  let value ← e.lower
  checkUsed e value.slot
  releaseOperand value.slot
  let post ← takePost
  return value.code ++ post

theorem gives_plainEffect {e : Expr} {u : Scope} (h : Gives (plainEffect e) f u code t) :
    ∃ v w, Gives e.lower f u v w ∧ code = v.code ++ w.post ∧ ∃ pool, t = { w with pool, post := [] } := by
  simp only [plainEffect, gives_bind, gives_takePost, gives_pure] at h
  obtain ⟨v, _, hv, _, w, hused, _, _, hrelease, _, _, ⟨rfl, rfl⟩, rfl, rfl⟩ := h
  obtain rfl := gives_checkUsed hused
  obtain ⟨pool, rfl⟩ := releaseOperand_pool hrelease
  exact ⟨v, w, hv, rfl, pool, rfl⟩

theorem effect_of_assigned {e : Expr} {u : Scope} {a : Nat} {value : Memory → Word}
    {safe : Memory → Prop} (hpost : u.post = [])
    (hassigned : ∀ {v t}, Gives e.lower f u v t → Assigned m u a value safe v t)
    (h : Gives (plainEffect e) f u code t) :
    t.session.jumps = u.session.jumps ∧ code.labels = [] ∧ ∀ μ, u.ground.HoldIn μ → safe μ →
      ∃ μ', m.Runs code μ μ' ∧ AgreeOutside u.registers (Function.update μ a (value μ)) μ' := by
  obtain ⟨v, w, hv, rfl, pool, rfl⟩ := gives_plainEffect h
  have hv := hassigned hv
  rw [hv.post, hpost, List.append_nil]
  exact ⟨hv.jumps, hv.labels, hv.runs⟩

theorem effect_performs {e : Expr} (hs : s.Prepared m)
    (he : e.IsAssignment ((Scope.start s).ground.long? f.function) ∅)
    (h : Gives (effect e.asStatement) f (.start s) code t) :
    t.session.jumps = s.jumps ∧ code.labels = [] ∧ ∀ μ, (Scope.start s).ground.HoldIn μ →
      ∃ μ', m.Runs code μ μ' ∧ AgreeOutside (Scope.start s).registers
        (e.perform m.alu ((Scope.start s).ground.long? f.function) μ) μ' := by
  obtain ⟨_, u, hallow, h⟩ := gives_bind.mp h
  obtain rfl : { Scope.start s with reuse := .allowed } = u := gives_modify.mp hallow
  have hready {a : Nat} (ha : a ∉ (Scope.start s).registers)
      (hconstants : ∀ slot w, (Scope.start s).ground.Names slot w → slot.address ≠ some a) :
      ({ Scope.start s with reuse := .allowed } : Scope).Ready m :=
    ready_reuse hs.ready (by simp [Reuse.target?]) ha hconstants
  cases he with
  | @assign op name value line line' a hname _ hvalue =>
    obtain ⟨ha, hconstants⟩ := hs.long_apart hname
    obtain ⟨hjumps, hlabels, hruns⟩ := effect_of_assigned rfl
      (assign_assigned_of_isPure (hready ha hconstants) hname ha rfl hconstants
        (fun other hother => hs.sound.long?_injective hname hother)
        (hvalue.avoids fun _ _ hb => (hs.long_apart hb).1)) h
    simp only [Expr.perform, hname]
    exact ⟨hjumps, hlabels, fun μ hμ => hruns μ hμ trivial⟩
  | @step up before name line line' a hname _ =>
    obtain ⟨ha, hconstants⟩ := hs.long_apart hname
    have hstatement : (Expr.step up before (.lookup name [] line') line).asStatement =
        .step up true (.lookup name [] line') line := by cases before <;> rfl
    rw [hstatement] at h
    obtain ⟨hjumps, hlabels, hruns⟩ := effect_of_assigned rfl
      (step_assigned (hready ha hconstants) (hs.ready.plain?_of_long? hname)) h
    simp only [Expr.perform, hname]
    exact ⟨hjumps, hlabels, fun μ hμ => hruns μ hμ trivial⟩

theorem condition_tests {e : Expr} {b : Branch} (hs : s.Prepared m)
    (he : Stmt.IsTest ((Scope.start s).ground.long? f.function) e b.reversed)
    (h : Gives (condition e b) f (.start s) code t) :
    t.session.jumps = s.jumps + UInt32.ofNat e.connectives ∧
      code.Numbered s.jumps e.connectives ∧
      (e.connectives < UInt32.size → b.onFalse ∉ code.labels → b.onTrue ∉ code.labels →
        Tests m (Scope.start s).ground.HoldIn (Scope.start s).registers b
          (e.holds m.alu ((Scope.start s).ground.long? f.function)) code) := by
  simp only [condition, gives_bind, gives_get] at h
  obtain ⟨code, u, hcode, _, _, ⟨rfl, rfl⟩, h⟩ := h
  split at h
  · simp at h
  obtain ⟨rfl, rfl⟩ := gives_pure.mp h
  have hready := hs.ready
  have hscratch := Session.scratch_start s
  have hpure {e : Expr} (he : e.IsPure ((Scope.start s).ground.long? f.function) ∅) :
      e.isValue = true ∧ Reliable m f (.start s) (Scope.start s).scratch e :=
    ⟨he.isValue, reliable_of_isPure hready
      (he.avoids fun _ _ ha => hscratch ▸ (hs.long_apart ha).1)⟩
  have hvalue {e : Expr} (he : e.IsPure ((Scope.start s).ground.long? f.function) ∅) :=
    (hpure he).1
  have hbranched := branched_lowerCondition hready (Scope.start s).workspace_subset_scratch hpure
    he.condition (.refl _) hcode
  refine ⟨hbranched.jumps, hbranched.numbered, fun hsize hfalse htrue => .of_leave ?_⟩
  intro μ ν stack hν
  have hagree : AgreeOutside (Scope.start s).scratch μ ν := hscratch ▸ hν.agree
  obtain ⟨ν', hspare, hflow⟩ :=
    hbranched.leaves hsize hfalse htrue ν stack (hready.holdIn hagree hν.constants)
  have hexit := Expr.exit_congr (fun hq => ⟨hvalue hq, (hpure hq).2.steady hagree⟩) he.condition
    b.reversed
  refine ⟨ν', _, ⟨hν.constants, hν.agree.trans ?_⟩, ?_, ?_, hflow⟩
  · exact hscratch ▸ hspare.mono (Scope.start s).spare_subset_scratch
  · rw [hexit]
    exact Expr.side_eq_holds hvalue he.condition he.straight
  · exact Expr.side_of_not_jumped hvalue he.condition

end Lower

/-! ## Emitted code -/

/-- The plain variables of a unit with their addresses. -/
def Session.vars (s : Session) (function : Option Function) : String → Option Nat :=
  (Scope.start s).ground.long? (function.map Function.name)

theorem Lower.gives_whole {α : Type} {k : Lower α} {f : Frame} {s t : Scope} {a : α}
    (h : Gives (whole k) f s a t) : Gives k f s a t := by
  simp only [whole, gives_bind, finish, gives_get, gives_pure] at h
  obtain ⟨a, u, hk, _, _, ⟨_, _, ⟨rfl, rfl⟩, hfinish⟩, rfl, rfl⟩ := h
  split at hfinish
  · obtain ⟨-, rfl⟩ := gives_pure.mp hfinish
    exact hk
  · simp at hfinish

namespace Session.Prepared

variable {m : Machine} {o : Session} {function : Option String} {e : Expr} {μ ν : Memory}

theorem holdIn (ho : o.Prepared m)
    (hν : Mirrors (Scope.start o).ground.HoldIn (Scope.start o).registers μ ν) :
    (Scope.start o).ground.HoldIn ν :=
  ho.ready.holdIn (scratch_start o ▸ hν.agree) hν.constants

theorem eval_eq (ho : o.Prepared m) (he : e.IsPure ((Scope.start o).ground.long? function) ∅)
    (h : AgreeOutside (Scope.start o).registers μ ν) :
    e.eval m.alu ((Scope.start o).ground.long? function) ν =
      e.eval m.alu ((Scope.start o).ground.long? function) μ :=
  (he.avoids fun _ _ ha => (ho.long_apart ha).1).steady m.alu h

theorem perform_mirrors (ho : o.Prepared m)
    (he : e.IsAssignment ((Scope.start o).ground.long? function) ∅)
    (hν : Mirrors (Scope.start o).ground.HoldIn (Scope.start o).registers μ ν) :
    Mirrors (Scope.start o).ground.HoldIn (Scope.start o).registers
      (e.perform m.alu ((Scope.start o).ground.long? function) μ)
      (e.perform m.alu ((Scope.start o).ground.long? function) ν) := by
  have hupdate {name : String} {a : Nat} {w w' : Word}
      (hname : (Scope.start o).ground.long? function name = some a)
      (hw : μ a = ν a → w = w') :
      Mirrors (Scope.start o).ground.HoldIn (Scope.start o).registers (Function.update μ a w)
        (Function.update ν a w') := by
    obtain ⟨ha, hconstants⟩ := ho.long_apart hname
    obtain rfl := hw (hν.agree a ha).symm
    refine ⟨fun slot v b hnames hb => ?_, fun b hb => ?_⟩
    · have hne : b ≠ a := fun heq => hconstants slot v hnames (heq ▸ hb)
      rw [Function.update_of_ne hne]
      exact hν.constants slot v b hnames hb
    · by_cases hba : b = a
      · rw [hba, Function.update_self, Function.update_self]
      · rw [Function.update_of_ne hba, Function.update_of_ne hba, hν.agree b hb]
  cases he with
  | assign hname _ hvalue =>
    simp only [Expr.perform, hname]
    exact hupdate hname fun heq => by rw [heq, ho.eval_eq hvalue hν.agree]
  | step hname _ =>
    simp only [Expr.perform, hname]
    exact hupdate hname fun heq => by rw [heq]

end Session.Prepared

/-- The labels of emitted code are made from numbers taken for it, and the table stays as it is. -/
structure Issued (s : Session) (code : Code) (t : Session) (n : Nat) : Prop where
  plan : t.plan = s.plan
  jumps : t.jumps = s.jumps + UInt32.ofNat n
  numbered : code.Numbered s.jumps n

namespace Issued

variable {s t u : Session} {code code' : Code} {n n' : Nat}

theorem of_labels (hplan : t.plan = s.plan) (hjumps : t.jumps = s.jumps)
    (hlabels : code.labels = []) : Issued s code t 0 :=
  ⟨hplan, by simp [hjumps], .of_labels_eq_nil hlabels⟩

theorem append (h : Issued s code t n) (h' : Issued t code' u n') :
    Issued s (code ++ code') u (n + n') where
  plan := h'.plan.trans h.plan
  jumps := by rw [h'.jumps, h.jumps, UInt32.ofNat_add, UInt32.add_assoc]
  numbered := h.numbered.append (h.jumps ▸ h'.numbered)

theorem enclose {r : Routine} {p q : Progress} {id : String} (own : List String)
    (h : Issued q.session code t n) (hid : Gives Emit.newJump r p id q)
    (hown : ∀ label ∈ own, label ∈ Label.family id := by simp [Label.family])
    (hnodup : own.Nodup := by simp [← String.toList_inj, toString])
    (hlabels : code'.labels.Perm (own ++ code.labels) := by
      rw [List.perm_iff_count]; intro; simp [List.count_cons, LoopLabels.ofId]; omega) :
    Issued p.session code' t (n + 1) := by
  obtain ⟨rfl, rfl⟩ := Emit.gives_newJump.mp hid
  have hnumbered : code.Numbered (p.session.jumps + 1) n := h.numbered
  have hjumps : t.jumps = p.session.jumps + 1 + UInt32.ofNat n := h.jumps
  refine ⟨h.plan, ?_, hnumbered.enclose hlabels hown hnodup⟩
  rw [hjumps, UInt32.add_assoc, Nat.add_comm n 1, UInt32.ofNat_add]
  rfl

theorem not_mem {r : Routine} {p q : Progress} {id label : String}
    (h : Issued q.session code t n) (hid : Gives Emit.newJump r p id q)
    (hlabel : label ∈ Label.family id) (hn : n < UInt32.size) : label ∉ code.labels := by
  obtain ⟨rfl, rfl⟩ := Emit.gives_newJump.mp hid
  have hnumbered : code.Numbered (p.session.jumps + 1) n := h.numbered
  exact hnumbered.not_mem hlabel hn

end Issued

structure Emitted (m : Machine) (o : Session) (loop : Option String) (behaviour : Behaviour)
    (s : Session) (code : Code) (t : Session) (n : Nat) : Prop extends Issued s code t n where
  realizes : n < UInt32.size → Realizes m (Scope.start o).ground.HoldIn (Scope.start o).registers
    (loop.map LoopLabels.ofId) behaviour code

namespace Emit

variable {m : Machine} {o : Session} {r : Routine} {p q : Progress} {code : Code} {e : Expr}
  {b : Lower.Branch}

theorem plan_of_weaves {k : Emit Code} (h : Gives k r p code q)
    (hk : Weaves (fun clause => clause.isConst = false) k) : q.session.plan = p.session.plan :=
  (hk h).plan fun _ hclause => hclause

theorem expression_makes (ho : o.Prepared m) (hp : p.session.plan = o.plan)
    (he : e.IsAssignment (o.vars r.function) ∅) (h : Gives (expression e) r p code q) :
    Issued p.session code q.session 0 ∧
      Makes m (Scope.start o).ground.HoldIn (Scope.start o).registers
        (e.perform m.alu (o.vars r.function) ·) code := by
  have hplan := plan_of_weaves h (weaves_expression rfl)
  obtain ⟨t, ht, rfl⟩ := gives_inScope.mp h
  have hvars : (Scope.start p.session).ground.long? (frame r e.line false).function =
      o.vars r.function := by rw [Session.long?_of_plan hp]; rfl
  obtain ⟨hjumps, hlabels, hruns⟩ := Lower.effect_performs (ho.congr hp) (hvars ▸ he)
    (Lower.gives_whole ht)
  refine ⟨.of_labels hplan hjumps hlabels, fun μ ν hν => ?_⟩
  rw [Session.holdIn_of_plan hp, Session.registers_of_plan hp, hvars] at hruns
  obtain ⟨ν', hcode, hagree⟩ := hruns ν (ho.holdIn hν)
  have hmirrors := ho.perform_mirrors he hν
  exact ⟨ν', hcode, hmirrors.constants, hmirrors.agree.trans hagree⟩

theorem condition_tests (ho : o.Prepared m) (hp : p.session.plan = o.plan)
    (he : Stmt.IsTest (o.vars r.function) e b.reversed) (h : Gives (condition e b) r p code q) :
    Issued p.session code q.session e.connectives ∧
      (e.connectives < UInt32.size → b.onFalse ∉ code.labels → b.onTrue ∉ code.labels →
        Tests m (Scope.start o).ground.HoldIn (Scope.start o).registers b
          (e.holds m.alu (o.vars r.function)) code) := by
  have hplan := plan_of_weaves h (weaves_condition rfl)
  obtain ⟨t, ht, rfl⟩ := gives_inScope.mp h
  have hvars : (Scope.start p.session).ground.long? (frame r e.line false).function =
      o.vars r.function := by rw [Session.long?_of_plan hp]; rfl
  obtain ⟨hjumps, hnumbered, htests⟩ := Lower.condition_tests (ho.congr hp) (hvars ▸ he)
    (Lower.gives_whole ht)
  rw [Session.holdIn_of_plan hp, Session.registers_of_plan hp, hvars] at htests
  exact ⟨⟨hplan, hjumps, hnumbered⟩, htests⟩

/-- A step that emits code for a behaviour, from any session with the table of `o`. -/
def Emits (m : Machine) (o : Session) (r : Routine) (loop : Option String) (k : Emit Code)
    (behaviour : Behaviour) (n : Nat) : Prop :=
  ∀ ⦃p : Progress⦄ ⦃code : Code⦄ ⦃q : Progress⦄, p.session.plan = o.plan → Gives k r p code q →
    Emitted m o loop behaviour p.session code q.session n

variable {loop : Option String} {behaviour yes no : Behaviour} {n n' : Nat} {k : Emit Code}

theorem emits_nil : Emits m o r loop (pure []) (.update id) 0 := by
  intro p code q _ h
  obtain ⟨rfl, rfl⟩ := gives_pure.mp h
  exact ⟨.of_labels rfl rfl rfl, fun _ => Makes.nil.realizes⟩

theorem note_runs {line? : Option Line} {note : Code} (h : Gives (comment line?) r p note q) :
    Issued p.session note q.session 0 ∧ ∀ μ, m.Runs note μ μ := by
  obtain ⟨hsession, rfl | ⟨text, rfl⟩⟩ := gives_comment h <;> rw [hsession]
  · exact ⟨.of_labels rfl rfl rfl, fun _ => .nil⟩
  · exact ⟨.of_labels rfl rfl rfl, fun _ _ => rfl⟩

theorem emits_commented {line? : Option Line} (h : Emits m o r loop k behaviour n) :
    Emits m o r loop (commented line? k) behaviour n := by
  intro p code q hp hk
  simp only [commented, gives_bind, gives_pure] at hk
  obtain ⟨note, p₁, hnote, code, p₂, hcode, rfl, rfl⟩ := hk
  obtain ⟨hissued, hruns⟩ := note_runs (m := m) hnote
  have hcode := h (hissued.plan.trans hp) hcode
  refine ⟨?_, fun hn => (hcode.realizes hn).after hruns⟩
  have happend := hissued.append hcode.toIssued
  rwa [Nat.zero_add] at happend

theorem emits_seq {k' : Emit Code} (h : Emits m o r loop k yes n) (h' : Emits m o r loop k' no n') :
    Emits m o r loop (do
      let first ← k
      return first ++ (← k')) (.seq yes no) (n + n') := by
  intro p code q hp hk
  simp only [gives_bind, gives_pure] at hk
  obtain ⟨first, p₁, hfirst, second, p₂, hsecond, rfl, rfl⟩ := hk
  have hfirst := h hp hfirst
  have hsecond := h' (hfirst.plan.trans hp) hsecond
  exact ⟨hfirst.append hsecond.toIssued,
    fun hn => (hfirst.realizes (by omega)).seq (hsecond.realizes (by omega))⟩

theorem emits_jumpInLoop {ending : Ending} {label : LoopLabels → String} {line : Line} {cause : Cause}
    (h : ∀ {whole loop stop s},
      ending.resume whole (some loop) stop s = some (whole.goto (label loop) s)) :
    Emits m o r loop (jumpInLoop loop label line cause) (.leave ending) 0 := by
  intro p code q _ hk
  unfold jumpInLoop at hk
  split at hk
  · obtain ⟨rfl, rfl⟩ := gives_pure.mp hk
    exact ⟨.of_labels rfl rfl rfl, fun _ => .jump h⟩
  · exact absurd hk gives_throw

theorem emits_declaration (tokens : List Token) :
    Emits m o r loop (do declaration tokens; return []) (.update id) 0 := by
  intro p code q _ h
  have hplan := plan_of_weaves h (weaves_declaration tokens)
  obtain ⟨rfl, names, rfl⟩ := gives_declaration h
  exact ⟨.of_labels hplan rfl rfl, fun _ => Makes.nil.realizes⟩

theorem emits_expression (ho : o.Prepared m) (he : e.IsAssignment (o.vars r.function) ∅) :
    Emits m o r loop (expression e) (.update (e.perform m.alu (o.vars r.function) ·)) 0 := by
  intro p code q hp h
  obtain ⟨hissued, hmakes⟩ := expression_makes ho hp he h
  exact ⟨hissued, fun _ => hmakes.realizes⟩

theorem newJump_plan {id : String} (h : Gives newJump r p id q) :
    q.session.plan = p.session.plan := by
  obtain ⟨-, rfl⟩ := gives_newJump.mp h
  rfl

theorem emits_ifElse {k' : Emit Code} (ho : o.Prepared m)
    (he : Stmt.IsTest (o.vars r.function) e false) (hyes : Emits m o r loop k yes n)
    (hno : Emits m o r loop k' no n') :
    Emits m o r loop (ifElse e k (some k')) (.choose (e.holds m.alu (o.vars r.function)) yes no)
      (e.connectives + n + n' + 1) := by
  intro p code q hp hk
  simp only [ifElse, gives_bind, gives_pure] at hk
  obtain ⟨id, p₁, hid, tested, p₂, htest, first, p₃, hfirst, second, p₄, hsecond, _, _, ⟨rfl, rfl⟩,
    rfl, rfl⟩ := hk
  have hp₁ : p₁.session.plan = o.plan := (newJump_plan hid).trans hp
  obtain ⟨hissued, htests⟩ := condition_tests ho hp₁ he htest
  have hfirst := hyes (hissued.plan.trans hp₁) hfirst
  have hsecond := hno (hfirst.plan.trans (hissued.plan.trans hp₁)) hsecond
  refine ⟨((hissued.append hfirst.toIssued).append hsecond.toIssued).enclose
    [s!"__if{id}_start", s!"__if{id}_else", s!"__if{id}_endif"] hid, fun hn => ?_⟩
  have htests := htests (by omega) (hissued.not_mem hid (by simp [Label.family]) (by omega))
    (hissued.not_mem hid (by simp [Label.family]) (by omega))
  exact .ifElse (b := ⟨s!"__if{id}_else", s!"__if{id}_start", false⟩) rfl htests
    (hfirst.realizes (by omega)) (hsecond.realizes (by omega))

theorem emits_ifOnly (ho : o.Prepared m) (he : Stmt.IsTest (o.vars r.function) e false)
    (hyes : Emits m o r loop k yes n) :
    Emits m o r loop (ifElse e k none)
      (.choose (e.holds m.alu (o.vars r.function)) yes (.update id)) (e.connectives + n + 1) := by
  intro p code q hp hk
  simp only [ifElse, gives_bind, gives_pure] at hk
  obtain ⟨id, p₁, hid, tested, p₂, htest, first, p₃, hfirst, _, _, ⟨rfl, rfl⟩, rfl, rfl⟩ := hk
  have hp₁ : p₁.session.plan = o.plan := (newJump_plan hid).trans hp
  obtain ⟨hissued, htests⟩ := condition_tests ho hp₁ he htest
  have hfirst := hyes (hissued.plan.trans hp₁) hfirst
  refine ⟨(hissued.append hfirst.toIssued).enclose [s!"__if{id}_start", s!"__if{id}_endif"] hid,
    fun hn => ?_⟩
  have htests := htests (by omega) (hissued.not_mem hid (by simp [Label.family]) (by omega))
    (hissued.not_mem hid (by simp [Label.family]) (by omega))
  rw [List.append_nil]
  exact .ifOnly (b := ⟨s!"__if{id}_endif", s!"__if{id}_start", false⟩) rfl htests (hfirst.realizes (by omega))

theorem optionalExpression_makes {e : Option Expr} (ho : o.Prepared m) (hp : p.session.plan = o.plan)
    (he : ∀ x ∈ e, x.IsAssignment (o.vars r.function) ∅)
    (h : Gives (optionalExpression e) r p code q) :
    Issued p.session code q.session 0 ∧
      Makes m (Scope.start o).ground.HoldIn (Scope.start o).registers
        (Stmt.perform m.alu (o.vars r.function) e) code := by
  cases e with
  | none =>
    obtain ⟨rfl, rfl⟩ := gives_pure.mp h
    exact ⟨.of_labels rfl rfl rfl, .nil⟩
  | some e => exact expression_makes ho hp (he e rfl) h

theorem optionalCondition_tests {e : Option Expr} (ho : o.Prepared m) (hp : p.session.plan = o.plan)
    (he : ∀ x ∈ e, Stmt.IsTest (o.vars r.function) x false) (hb : b.reversed = false)
    (h : Gives (optionalCondition e b) r p code q) :
    Issued p.session code q.session (e.elim 0 Expr.connectives) ∧
      (e.elim 0 Expr.connectives < UInt32.size → b.onFalse ∉ code.labels → b.onTrue ∉ code.labels →
        Tests m (Scope.start o).ground.HoldIn (Scope.start o).registers b
          (Stmt.holds m.alu (o.vars r.function) e) code) := by
  cases e with
  | none =>
    obtain ⟨rfl, rfl⟩ := gives_pure.mp h
    exact ⟨.of_labels rfl rfl rfl, fun _ _ _ => .nil hb⟩
  | some e => exact condition_tests ho hp (hb ▸ he e rfl) h

section Loops

variable {body : String → Emit Code} {round : Behaviour}
  (hbody : ∀ id, Emits m o r (some id) (body id) round n) (ho : o.Prepared m)
include hbody ho

theorem emits_whileLoop (he : Stmt.IsTest (o.vars r.function) e false) :
    Emits m o r loop (whileLoop e body) (.loop (e.holds m.alu (o.vars r.function)) round id)
      (e.connectives + n + 1) := by
  intro p code q hp hk
  simp only [whileLoop, gives_bind, gives_pure] at hk
  obtain ⟨id, p₁, hid, tested, p₂, htest, code, p₃, hcode, rfl, rfl⟩ := hk
  have hp₁ : p₁.session.plan = o.plan := (newJump_plan hid).trans hp
  obtain ⟨hissued, htests⟩ := condition_tests ho hp₁ he htest
  have hcode := hbody id (hissued.plan.trans hp₁) hcode
  refine ⟨(hissued.append hcode.toIssued).enclose
    [s!"__loop{id}_start", s!"__loop{id}_continue", s!"__loop{id}_break"] hid, fun hn => ?_⟩
  have htests := htests (by omega)
    (hissued.not_mem hid (by simp [Label.family, LoopLabels.ofId]) (by omega))
    (hissued.not_mem hid (by simp [Label.family, LoopLabels.ofId]) (by omega))
  exact .whileLoop rfl htests (hcode.realizes (by omega))

theorem emits_doLoop (he : Stmt.IsTest (o.vars r.function) e true) :
    Emits m o r loop (doLoop e body) (.loopAfter (e.holds m.alu (o.vars r.function)) round)
      (n + e.connectives + 1) := by
  intro p code q hp hk
  simp only [doLoop, gives_bind, gives_pure] at hk
  obtain ⟨id, p₁, hid, code, p₂, hcode, note, p₃, hnote, tested, p₄, htest, rfl, rfl⟩ := hk
  have hp₁ : p₁.session.plan = o.plan := (newJump_plan hid).trans hp
  have hcode := hbody id hp₁ hcode
  obtain ⟨hnoted, hruns⟩ := note_runs (m := m) hnote
  have hp₃ : p₃.session.plan = o.plan := (hnoted.plan.trans hcode.plan).trans hp₁
  obtain ⟨hissued, htests⟩ := condition_tests ho hp₃ he htest
  have hinner := (hcode.append hnoted).append hissued
  refine ⟨hinner.enclose [s!"__loop{id}_start", s!"__loop{id}_continue", s!"__loop{id}_break"] hid,
    fun hn => ?_⟩
  have hnot {label : String} (hlabel : label ∈ Label.family id) : label ∉ tested.labels :=
    fun hmem => hinner.not_mem hid hlabel (by omega) (by simp [hmem])
  have htests := htests (by omega) (hnot (by simp [Label.family, LoopLabels.ofId]))
    (hnot (by simp [Label.family, LoopLabels.ofId]))
  rw [List.append_assoc _ note tested]
  exact .doLoop rfl (htests.after hruns) (hcode.realizes (by omega))

theorem emits_forLoop {init test step : Option Expr}
    (hinit : ∀ x ∈ init, x.IsAssignment (o.vars r.function) ∅)
    (htest : ∀ x ∈ test, Stmt.IsTest (o.vars r.function) x false)
    (hstep : ∀ x ∈ step, x.IsAssignment (o.vars r.function) ∅) :
    Emits m o r loop (forLoop init test step body)
      (.seq (.update (Stmt.perform m.alu (o.vars r.function) init))
        (.loop (Stmt.holds m.alu (o.vars r.function) test) round
          (Stmt.perform m.alu (o.vars r.function) step)))
      (test.elim 0 Expr.connectives + n + 1) := by
  intro p code q hp hk
  simp only [forLoop, gives_bind, gives_pure] at hk
  obtain ⟨id, p₁, hid, first, p₂, hfirst, tested, p₃, htested, code, p₄, hcode, last, p₅, hlast, rfl,
    rfl⟩ := hk
  have hp₁ : p₁.session.plan = o.plan := (newJump_plan hid).trans hp
  obtain ⟨hissued₁, hfirst⟩ := optionalExpression_makes ho hp₁ hinit hfirst
  have hp₂ := hissued₁.plan.trans hp₁
  obtain ⟨hissued₂, htests⟩ := optionalCondition_tests ho hp₂ htest rfl htested
  have hp₃ := hissued₂.plan.trans hp₂
  have hcode := hbody id hp₃ hcode
  obtain ⟨hissued₃, hlast⟩ := optionalExpression_makes ho (hcode.plan.trans hp₃) hstep hlast
  have hinner := ((hissued₁.append hissued₂).append hcode.toIssued).append hissued₃
  rw [Nat.zero_add, Nat.add_zero] at hinner
  refine ⟨hinner.enclose [s!"__loop{id}_start", s!"__loop{id}_continue", s!"__loop{id}_break",
    s!"__loop{id}_condition"] hid, fun hn => ?_⟩
  have hnot {label : String} (hlabel : label ∈ Label.family id) : label ∉ tested.labels :=
    fun hmem => hinner.not_mem hid hlabel (by omega) (by simp [hmem])
  have htests := htests (by omega) (hnot (by simp [Label.family, LoopLabels.ofId]))
    (hnot (by simp [Label.family, LoopLabels.ofId]))
  exact .forLoop rfl hfirst htests (hcode.realizes (by omega)) hlast

end Loops

end Emit

namespace Stmt

variable {m : Machine} {o : Session} {r : Routine}

theorem emits_emitBlock {body : List Stmt}
    (h : ∀ stmt ∈ body, ∀ loop, Emit.Emits m o r loop (stmt.emit loop)
      (stmt.exec m.alu (o.vars r.function)) stmt.numbers) (loop : Option String) :
    Emit.Emits m o r loop (emitBlock loop body) (execBlock m.alu (o.vars r.function) body)
      (blockNumbers body) := by
  induction body with
  | nil => exact Emit.emits_nil
  | cons stmt rest ih =>
    exact Emit.emits_seq (h stmt (by simp) loop) (ih fun x hx => h x (by simp [hx]))

theorem emits_emit (ho : o.Prepared m) {stmt : Stmt} (h : stmt.IsStructured (o.vars r.function))
    (loop : Option String) :
    Emit.Emits m o r loop (stmt.emit loop) (stmt.exec m.alu (o.vars r.function)) stmt.numbers := by
  induction h generalizing loop with
  | expression he => exact Emit.emits_commented (Emit.emits_expression ho he)
  | declaration tokens => exact Emit.emits_declaration tokens
  | structDefinition => exact Emit.emits_nil
  | @ifElse e thenBranch elseBranch line he _ _ hthen helse =>
    refine Emit.emits_commented ?_
    cases elseBranch with
    | none => exact Emit.emits_ifOnly ho he (emits_emitBlock hthen loop)
    | some body =>
      exact Emit.emits_ifElse ho he (emits_emitBlock hthen loop)
        (emits_emitBlock (helse body rfl) loop)
  | whileLoop he _ ih =>
    exact Emit.emits_commented (Emit.emits_whileLoop (fun id => emits_emitBlock ih (some id)) ho he)
  | doLoop he _ ih =>
    exact Emit.emits_commented (Emit.emits_doLoop (fun id => emits_emitBlock ih (some id)) ho he)
  | forLoop hinit he hstep _ ih =>
    exact Emit.emits_commented
      (Emit.emits_forLoop (fun id => emits_emitBlock ih (some id)) ho hinit he hstep)
  | breakLoop line | continueLoop line =>
    exact Emit.emits_commented (Emit.emits_jumpInLoop rfl)
  | block _ ih => exact emits_emitBlock ih loop

end Stmt

/-! ## Units -/

namespace Session

section Beside

variable {P : Session → Prop}
  (hP : ∀ (s : Session) slots catalog, P s → P { s with table := (s.table.append slots).1, catalog })

include hP

theorem keeps_beside_liftLayout {α : Type} (step : Layout α) :
    Keeps P (liftLayout step) fun _ => True := by
  intro s hs
  rw [result_liftLayout]
  exact ⟨hP s [] _ hs, fun _ _ => trivial⟩

theorem keeps_beside_declare (place : Place) (tokens : List Token) :
    Keeps P (declare place tokens) fun _ => True := by
  refine keeps_bind (keeps_beside_liftLayout hP _) fun slots _ => keeps_bind keeps_get fun s hs => ?_
  refine keeps_bind (keeps_set (hP s _ s.catalog hs)) fun _ _ => ?_
  split
  · exact keeps_pure trivial
  · exact keeps_throw _

theorem keeps_beside_defineAll (place : Place) (body : List Stmt) :
    Keeps P (defineAll place body) fun _ => True := by
  refine keeps_forM fun definition _ => ?_
  rcases definition with tokens | ⟨name, members, line⟩
  · exact keeps_bind (keeps_beside_declare hP place tokens) fun _ _ => keeps_pure trivial
  · rw [define]
    exact keeps_beside_liftLayout hP _

theorem keeps_beside_build (hsign : ∀ (s : Session) functions, P s → P { s with functions })
    (program : Program) : Keeps P (build program) fun _ => True := by
  refine keeps_bind (keeps_beside_defineAll hP _ _) fun _ _ => keeps_forM fun f _ => ?_
  have hdone (arguments : List Slot) : Keeps P (do
      modify fun s => { s with functions := s.functions ++ [signatureOf f arguments] }
      defineAll (.function f.name) f.body) fun _ => True :=
    keeps_bind (keeps_modify fun s hs => hsign s _ hs) fun _ _ => keeps_beside_defineAll hP _ _
  unfold defineFunction
  refine keeps_bind keeps_get fun s _ => ?_
  dsimp only
  split
  · exact keeps_throw _
  split
  · exact keeps_bind (keeps_pure (Q := fun _ => True) trivial) fun arguments _ => hdone arguments
  · exact keeps_bind (keeps_beside_declare hP _ _) fun arguments _ => hdone arguments

end Beside

theorem keeps_names_build {names : List String} (program : Program) :
    Keeps (fun s => s.autoConstants = names) (build program) fun _ => True :=
  keeps_beside_build (fun _ _ _ hs => hs) (fun _ _ hs => hs) program

/-- The sessions in which the units of a program are emitted, as long as there are no ready-made
constants and no `const` sentences. -/
inductive Constless (program : Program) : Session → Prop
  | built {options s t} (hoptions : options.constants = 0)
      (hs : Session.start options = .ok s) (ht : result (Session.build program) s = (.ok (), t)) :
      Constless program t
  | unit {s t function sourceLines body code} (hs : Constless program s)
      (hbody : ∀ e, ¬ Stmt.BlockUses body (.const e))
      (h : result (emitUnit function sourceLines body) s = (.ok code, t)) : Constless program t

variable {program : Program} {s t : Session} {function : Option Function} {sourceLines : List String}
  {body : List Stmt} {code : Code}

theorem gives_of_emitUnit (h : result (emitUnit function sourceLines body) s = (.ok code, t)) :
    ∃ labels q, Gives (Stmt.emitBlock none body) { function, sourceLines, labels } { session := s }
      code q ∧ q.session = t := by
  unfold emitUnit at h
  split at h
  · simp at h
  · rw [result_runEmit] at h
    obtain ⟨hcode, hsession⟩ := Prod.mk.inj h
    exact ⟨_, _, Prod.ext hcode rfl, hsession⟩

theorem Constless.sound (hprogram : program.AvoidsRegisters) (hs : s.Constless program) :
    s.table.Sound ∧ ∀ slot ∈ s.table.slots, slot.content ≠ none → slot.kind = .array := by
  induction hs with
  | @built options s t hoptions hs ht =>
    have hsound := (keeps_build hprogram _ (sound_start hs)).1
    have hnone : s.autoConstants = [] := by
      obtain ⟨-, rfl⟩ := start_eq_ok hs
      simp [hoptions, constantSlots]
    have hnames := (keeps_names_build program s hnone).1
    rw [ht] at hsound hnames
    have hnames : t.autoConstants = [] := hnames
    refine ⟨hsound.table, fun slot hslot hcontent => ?_⟩
    exact (hsound.filled slot hslot hcontent).resolve_right (by simp [hnames])
  | @unit s t _ _ body code _ hbody h ih =>
    obtain ⟨labels, q, hgives, rfl⟩ := gives_of_emitUnit h
    have hplan := Emit.plan_of_weaves hgives (Stmt.weaves_emitBlock none body fun clause huses => by
      cases clause with
      | const e => exact absurd huses (hbody e)
      | _ => rfl)
    refine ⟨Table.sound_bare.mp (bare_of_plan hplan ▸ Table.sound_bare.mpr ih.1), ?_⟩
    intro slot hslot hcontent
    obtain ⟨x, hx, heq⟩ := exists_unmarked hplan hslot
    have hkind := congrArg Slot.kind heq
    have hsame := congrArg Slot.content heq
    exact hkind ▸ ih.2 x hx (hsame.trans_ne hcontent)

end Session

/-- In a program without ready-made constants and `const` sentences, the code of a structured unit
runs from its start to its end exactly where the meaning of the unit gives a memory, and with that
memory but for the registers. Arrays named like a constant must hold it from the start. -/
theorem Session.unit_runs_as_meant {program : Program} (hprogram : program.AvoidsRegisters)
    {s t : Session} (hs : s.Constless program) {function : Option Function}
    {sourceLines : List String} {body : List Stmt} {code : Code}
    (hbody : ∀ stmt ∈ body, stmt.IsStructured (s.vars function))
    (hsize : Stmt.blockNumbers body < UInt32.size)
    (h : result (Session.emitUnit function sourceLines body) s = (.ok code, t)) {m : Machine}
    (hm : m.Has s.table) {μ : Memory} (hμ : (Scope.start s).ground.HoldIn μ) (stack : List Word)
    (M : Memory) :
    (∃ M' stack', AgreeOutside (Scope.start s).registers M M' ∧
      m.Steps code (.at 0 ⟨μ, stack⟩) (.at code.length ⟨M', stack'⟩)) ↔
    ∃ μ', AgreeOutside (Scope.start s).registers M μ' ∧
      Stmt.execBlock m.alu (s.vars function) body μ .through μ' := by
  obtain ⟨hsound, hcontents⟩ := hs.sound hprogram
  have ho : s.Prepared m := ⟨hsound, hm, hcontents⟩
  obtain ⟨labels, q, hgives, rfl⟩ := gives_of_emitUnit h
  have hemitted := Stmt.emits_emitBlock (fun stmt hstmt => Stmt.emits_emit ho (hbody stmt hstmt)) none
    rfl hgives
  have hstretch := hemitted.realizes hsize (hemitted.numbered.nodup hsize) (Code.hasAt_self code)
  have hend (s : Store) : m.step code (.at code.length s) = none := by simp [Machine.step]
  have hstart : Mirrors (Scope.start s).ground.HoldIn (Scope.start s).registers μ μ :=
    ⟨hμ, .refl _ μ⟩
  -- outside of loops a statement can only go through
  have hruns {how : Ending} {μ' : Memory}
      (hexec : Stmt.execBlock m.alu (s.vars function) body μ how μ') :
      how = .through ∧ ∃ M', AgreeOutside (Scope.start s).registers μ' M' ∧
        m.Steps code (.at 0 ⟨μ, stack⟩) (.at code.length ⟨M', stack⟩) := by
    obtain ⟨M', x, hM', hx, hsteps⟩ := hstretch.runs hexec hstart stack
    cases how with
    | through =>
      obtain rfl := Option.some.inj hx
      rw [Nat.zero_add] at hsteps
      exact ⟨rfl, M', hM'.agree, hsteps⟩
    | broken | continued => simp [Ending.resume] at hx
  constructor
  · rintro ⟨M₁, stack₁, hM₁, hsteps₁⟩
    obtain ⟨how, μ', hexec⟩ := hstretch.halts hstart (.of_final hsteps₁ (hend _))
    obtain ⟨rfl, M₂, hM₂, hsteps₂⟩ := hruns hexec
    have hsame := hsteps₁.final_unique hsteps₂ (hend _) (hend _)
    simp only [Run.at.injEq, Store.mk.injEq, true_and] at hsame
    refine ⟨μ', fun a ha => ?_, hexec⟩
    rw [← hM₁ a ha, ← hM₂ a ha, hsame.1]
  · rintro ⟨μ', hμ', hexec⟩
    obtain ⟨-, M₂, hM₂, hsteps₂⟩ := hruns hexec
    exact ⟨M₂, stack, hμ'.trans hM₂, hsteps₂⟩

/-- The session after the declarations of a program, with default options. -/
def Program.declared? (program : Program) : Option Session :=
  (Session.start {}).toOption.bind fun s =>
    ((result (Session.build program) s).1.toOption).map fun _ => (result (Session.build program) s).2

theorem Program.constless_of_declared? {program : Program} {s : Session}
    (h : program.declared? = some s) : s.Constless program := by
  obtain ⟨start, hstart, h⟩ := Option.bind_eq_some_iff.mp h
  obtain ⟨x, hx, rfl⟩ := Option.map_eq_some_iff.mp h
  exact .built rfl (eq_ok_of_toOption hstart) (Prod.ext (eq_ok_of_toOption hx) rfl)

/-- `y = 0; while (x) { y += x; x--; }` -/
def sumProgram : Program where
  main := [
    .declaration [.keyword "long" 1, .ident "x" 1, .comma 1, .ident "y" 1],
    .expression (.assign none (.var "y" 2) (.constant "0000000000000000" false 2) 2),
    .whileLoop (.var "x" 3) [
      .expression (.assign (some .add) (.var "y" 3) (.var "x" 3) 3),
      .expression (.step false false (.var "x" 3) 3)] 3]

/-- From `x = 2` the code of the sum leaves 3 in `y`, whatever was there before. -/
theorem sumProgram_sums :
    ∃ (s : Session) (code : Code) (m : Machine) (M : Memory) (stack : List Word),
      s.Constless sumProgram ∧
      (result (Session.emitUnit none [] sumProgram.main) s).1 = .ok code ∧
      s.vars none "y" = some 4 ∧ M 4 = 3 ∧
      m.Steps code (.at 0 ⟨fun a => if a = 3 then 2 else 7, []⟩) (.at code.length ⟨M, stack⟩) := by
  have hprogram : sumProgram.AvoidsRegisters := by decide
  have hsession : (sumProgram.declared?.any fun s =>
      s.vars none "x" = some 3 ∧ s.vars none "y" = some 4 ∧
      (∀ slot ∈ s.table.slots, slot.content = none) ∧
      some 4 ∉ (Scope.start s).ground.registers.map Slot.address ∧
      (result (Session.emitUnit none [] sumProgram.main) s).1.toOption.isSome) = true := by
    decide +kernel
  obtain ⟨s, hs, hsession⟩ := (Option.any_eq_true _ _).mp hsession
  obtain ⟨hx, hy, hcontents, hregister, hcode⟩ := of_decide_eq_true hsession
  obtain ⟨code, hcode⟩ := Option.isSome_iff_exists.mp hcode
  have hcode := eq_ok_of_toOption hcode
  have hs := Program.constless_of_declared? hs
  let m := s.table.machine .unsigned
  have hm : m.Has s.table := (hs.sound hprogram).1.has_machine .unsigned
  have hpure : (Expr.var "x" 3).IsPure (s.vars none) ∅ := .operand (.lookup hx (by simp))
  have hzero : Hex.value? "0000000000000000" = some 0 := by decide +kernel
  have hbody : ∀ stmt ∈ sumProgram.main, stmt.IsStructured (s.vars none) := by
    simp only [sumProgram, List.forall_mem_cons, List.not_mem_nil, false_imp_iff, implies_true,
      and_true]
    refine ⟨.declaration _, .expression (.assign hy (by simp) (.operand (.constant hzero))),
      .whileLoop ⟨.value hpure, rfl⟩ ?_⟩
    simp only [List.forall_mem_cons, List.not_mem_nil, false_imp_iff, implies_true, and_true]
    exact ⟨.expression (.assign hy (by simp) hpure), .expression (.step hx (by simp))⟩
  let μ : Memory := fun a => if a = 3 then 2 else 7
  have hμ : (Scope.start s).ground.HoldIn μ :=
    fun _ _ _ hnames => absurd hnames (Scope.not_names_start hcontents)
  obtain ⟨μ', hvalue, hexec⟩ : ∃ μ', μ' 4 = 3 ∧
      Stmt.execBlock m.alu (s.vars none) sumProgram.main μ .through μ' := by
    have hround (ν : Memory) : Stmt.execBlock m.alu (s.vars none) [
        .expression (.assign (some .add) (.var "y" 3) (.var "x" 3) 3),
        .expression (.step false false (.var "x" 3) 3)] ν .through
          (Function.update (Function.update ν 4 (ν 4 + ν 3)) 3 (ν 3 - 1)) := by
      refine .inl ⟨_, ⟨rfl, rfl⟩, .inl ⟨_, ⟨rfl, rfl⟩, rfl, ?_⟩⟩
      simp [Stmt.perform, Expr.perform, Expr.var, hx, hy, Expr.eval, Alu.assigned, m.alu.add]
    have hthrough : Ending.through ≠ .broken := by simp
    have htest (ν : Memory) :
        Stmt.holds m.alu (s.vars none) (some (.var "x" 3)) ν = (ν 3 != 0) := by
      simp [Stmt.holds, Expr.holds, Expr.var, Expr.eval, hx]
    have hclear : Stmt.perform m.alu (s.vars none)
        (some (.assign none (.var "y" 2) (.constant "0000000000000000" false 2) 2)) μ =
          Function.update μ 4 0 := by
      simp [Stmt.perform, Expr.perform, Expr.var, hy, Alu.assigned, Expr.eval, hzero]
    refine ⟨_, ?_, .inl ⟨_, ⟨rfl, rfl⟩, .inl ⟨_, ⟨rfl, hclear.symm⟩, .inl ⟨_, ⟨rfl,
      .again ?_ hthrough (hround _) (.again ?_ hthrough (hround _) (.stop ?_))⟩, rfl, rfl⟩⟩⟩⟩
    · decide +kernel
    all_goals
      rw [htest]
      decide +kernel
  obtain ⟨M, stack, hM, hsteps⟩ := (Session.unit_runs_as_meant hprogram hs hbody (by decide)
    (Prod.ext hcode rfl) hm hμ [] μ').mpr ⟨μ', .refl _ _, hexec⟩
  exact ⟨s, code, m, M, stack, hs, hcode, hy, (hM 4 hregister).trans hvalue, hsteps⟩

/-- `long n4[2], x; x = 4;`, where the array lies right before the word with address 4. -/
def namedArray : Program where
  main := [
    .declaration [.keyword "long" 1, .ident "n4" 1, .array 2 1, .comma 1, .ident "x" 1],
    .expression (.assign none (.var "x" 2) (.constant "0000000000000004" false 2) 2)]

/-- The array is read in place of the constant. In a memory in which nothing has been set, `x` gets 0
and not 4. -/
theorem namedArray_reads_array :
    ∃ (s : Session) (code : Code) (m : Machine) (μ : Memory),
      namedArray.AvoidsRegisters ∧ s.Constless namedArray ∧
      (∀ stmt ∈ namedArray.main, stmt.IsStructured (s.vars none)) ∧
      (result (Session.emitUnit none [] namedArray.main) s).1 = .ok code ∧ m.Has s.table ∧
      s.vars none "x" = some 6 ∧ 6 ∉ (Scope.start s).registers ∧
      Stmt.execBlock m.alu (s.vars none) namedArray.main μ .through (Function.update μ 6 4) ∧
      m.Steps code (.at 0 ⟨μ, []⟩) (.at code.length ⟨Function.update μ 6 0, []⟩) := by
  have hprogram : namedArray.AvoidsRegisters := by decide
  have hsession : (namedArray.declared?.any fun s => s.vars none "x" = some 6 ∧
      (s.table.machine .unsigned).place "x" = some 6 ∧
      (s.table.machine .unsigned).place "n4" = some 3 ∧
      some 6 ∉ (Scope.start s).ground.registers.map Slot.address ∧
      (result (Session.emitUnit none [] namedArray.main) s).1.toOption =
        some [.move "x" "n4"]) = true := by
    decide +kernel
  obtain ⟨s, hs, hsession⟩ := (Option.any_eq_true _ _).mp hsession
  obtain ⟨hx, hplace, hplace', hregister, hcode⟩ := of_decide_eq_true hsession
  have hs := Program.constless_of_declared? hs
  have hfour : Hex.value? "0000000000000004" = some 4 := by decide +kernel
  refine ⟨s, [.move "x" "n4"], s.table.machine .unsigned, fun _ => 0, hprogram, hs, ?_,
    eq_ok_of_toOption hcode, (hs.sound hprogram).1.has_machine .unsigned, hx, hregister, ?_, ?_⟩
  · simp only [namedArray, List.forall_mem_cons, List.not_mem_nil, false_imp_iff, implies_true,
      and_true]
    exact ⟨.declaration _, .expression (.assign hx (by simp) (.operand (.constant hfour)))⟩
  · refine .inl ⟨_, ⟨rfl, rfl⟩, .inl ⟨Function.update _ 6 4, ⟨rfl, ?_⟩, rfl, rfl⟩⟩
    simp only [Stmt.perform, Option.elim_some, Expr.perform, Expr.var, hx, Alu.assigned, Expr.eval,
      hfour, Option.getD_some, id]
  · exact .single (by simp [Machine.step, Machine.act, Machine.effect, Instr.move, Machine.load,
      Machine.read, Machine.assign, Machine.write, hplace, hplace'])

end Flatword
