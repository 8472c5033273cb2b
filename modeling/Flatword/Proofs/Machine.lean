import Mathlib.Logic.Function.Basic
import Mathlib.Logic.Relation
import Flatword.Asm.Instr
import Flatword.Word

/-!
# The machine that runs the assembly

A machine knows where each name stands in memory, and leaves code by a jump to a label that the code does not
have. `flow` passes through code once, from front to back; as long as all jumps go forward this is what the
machine does.
-/

namespace Flatword

/-- The words of the memory by their addresses. -/
abbrev Memory := Nat → Word

structure Store where
  memory : Memory
  stack : List Word := []

/-- The arithmetic of a machine. Only what the code relies on is fixed. -/
structure Alu where
  apply : BinaryOp → Word → Word → Word
  holds : Comparison → Word → Word → Bool
  add : ∀ a b, apply .add a b = a + b
  sub : ∀ a b, apply .sub a b = a - b
  comm : ∀ op a b, op.isCommutative = true → apply op a b = apply op b a
  eq : ∀ a b, holds .eq a b = (a == b)
  negate : ∀ op a b, holds op.negate a b = !holds op a b

theorem Alu.holds_zero (alu : Alu) {op : Comparison} (hop : op = .eq ∨ op = .ne) (w : Word) :
    alu.holds op w 0 = ((op == .eq) == (w == 0)) := by
  rcases hop with rfl | rfl
  · rw [alu.eq]
    cases w == 0 <;> rfl
  · have h := alu.negate .eq w 0
    rw [alu.eq] at h
    refine h.trans ?_
    cases w == 0 <;> rfl

/-- Arithmetic on words without signs. -/
def Alu.unsigned : Alu where
  apply
    | .add => (· + ·)
    | .sub => (· - ·)
    | .mul => (· * ·)
    | .div => (· / ·)
    | .mod => (· % ·)
    | .bitAnd => (· &&& ·)
    | .bitOr => (· ||| ·)
    | .bitXor => (· ^^^ ·)
    | .shl => (· <<< ·)
    | .shr => (· >>> ·)
  holds
    | .eq => (· == ·)
    | .ne => (· != ·)
    | .lt => fun a b => a < b
    | .le => fun a b => a ≤ b
    | .gt => fun a b => b < a
    | .ge => fun a b => b ≤ a
  add _ _ := rfl
  sub _ _ := rfl
  comm op a b h := by
    cases op <;> simp [BinaryOp.isCommutative] at h
    · exact UInt64.add_comm a b
    · exact UInt64.mul_comm a b
    · exact UInt64.and_comm a b
    · exact UInt64.or_comm a b
    · exact UInt64.xor_comm a b
  eq _ _ := rfl
  negate op a b := by cases op <;> simp [Comparison.negate, bne, ← UInt64.not_lt]

structure Machine where
  alu : Alu
  /-- The address of a name. -/
  place : String → Option Nat
  /-- Whether the word at an address may be reached by indirection. -/
  guard : Nat → Bool
  /-- What a function makes of the store. -/
  callee : String → Store → Store

/-- Whether an instruction computes and goes on to the next one. -/
def Instr.isStraight : Instr → Bool
  | set _ _ | clear _ | inc _ | dec _ | not _ | arith _ _ _ => true
  | _ => false

/-- What an instruction does. -/
inductive Action where
  | next (s : Store)
  | jump (label : String) (s : Store)
  /-- The program or the function is over. -/
  | done (s : Store)
  /-- A name without a place, a word that must not be reached, or an empty stack. -/
  | trap

namespace Machine

variable (m : Machine)

def read (memory : Memory) (name : String) : Option Word :=
  (m.place name).map memory

def write (memory : Memory) (name : String) (w : Word) : Option Memory :=
  (m.place name).map fun a => Function.update memory a w

/-- The address that an indirection leads to. -/
def pointed (memory : Memory) (base : String) (index : Option String) : Option Nat := do
  let base ← m.read memory base
  let index ← match index with
    | none => some 0
    | some index => m.read memory index
  let address := (base + index).toNat
  if m.guard address then some address else none

def load (memory : Memory) : Src → Option Word
  | .var name => m.read memory name
  | .immediate hex => Hex.value? hex
  | .indirect base index => (m.pointed memory base index).map memory

def assign (memory : Memory) (dest : Dest) (w : Word) : Option Memory :=
  match dest with
  | .var name => m.write memory name w
  | .indirect base index => (m.pointed memory base index).map fun a => Function.update memory a w

def change (memory : Memory) (name : String) (f : Word → Word) : Option Memory := do
  let w ← m.read memory name
  m.write memory name (f w)

/-- What an instruction does to the memory; none for those that do more. -/
def effect (memory : Memory) : Instr → Option Memory
  | .set dest src => do m.assign memory dest (← m.load memory src)
  | .clear name => m.write memory name 0
  | .inc name => m.change memory name (· + 1)
  | .dec name => m.change memory name (· - 1)
  | .not name => m.change memory name (~~~ ·)
  | .arith op dest src => do
    let w ← m.read memory src
    m.change memory dest (m.alu.apply op · w)
  | _ => some memory

def branch (test : Option Bool) (target : String) (s : Store) : Action :=
  match test with
  | some true => .jump target s
  | some false => .next s
  | none => .trap

def act (s : Store) : Instr → Action
  | .push name =>
    match m.read s.memory name with
    | some w => .next { s with stack := w :: s.stack }
    | none => .trap
  | .pop name =>
    match s.stack with
    | w :: stack =>
      match m.write s.memory name w with
      | some memory => .next ⟨memory, stack⟩
      | none => .trap
    | [] => .trap
  | .call target => .next (m.callee target s)
  | .jump target => .jump target s
  | .ifZero name target => branch ((m.read s.memory name).map (· == 0)) target s
  | .ifNonzero name target => branch ((m.read s.memory name).map (· != 0)) target s
  | .ifCompare op left right target =>
    branch (do return m.alu.holds op (← m.read s.memory left) (← m.read s.memory right)) target s
  | .ret | .finish | .stop => .done s
  | instr =>
    match m.effect s.memory instr with
    | some memory => .next { s with memory }
    | none => .trap

end Machine

/-! ## Runs -/

/-- Where a run stands. -/
inductive Run where
  | at (pc : Nat) (s : Store)
  /-- The code has been left by a jump. -/
  | left (label : String) (s : Store)
  | done (s : Store)
  | trap

namespace Code

/-- The labels of code in order. -/
def labels (code : Code) : List String :=
  List.filterMap (fun
    | .label name => some name
    | _ => none) code

/-- Go on at a label. -/
def goto (code : Code) (label : String) (s : Store) : Run :=
  if .label label ∈ code then .at (code.idxOf (.label label)) s else .left label s

end Code

namespace Machine

variable (m : Machine)

def step (code : Code) : Run → Option Run
  | .at pc s =>
    code[pc]?.map fun instr =>
      match m.act s instr with
      | .next s => .at (pc + 1) s
      | .jump label s => code.goto label s
      | .done s => .done s
      | .trap => .trap
  | _ => none

/-- Any number of steps. -/
def Steps (code : Code) : Run → Run → Prop :=
  Relation.ReflTransGen fun x y => m.step code x = some y

variable {m}

theorem Steps.eq_of_final {code : Code} {x y : Run} (h : m.Steps code x y)
    (hx : m.step code x = none) : y = x := by
  cases h.cases_head with
  | inl h => exact h.symm
  | inr h =>
    obtain ⟨z, hz, -⟩ := h
    simp [hx] at hz

theorem Steps.final_unique {code : Code} {x y z : Run} (hy : m.Steps code x y)
    (hz : m.Steps code x z) (hy' : m.step code y = none) (hz' : m.step code z = none) : y = z := by
  induction hy using Relation.ReflTransGen.head_induction_on with
  | refl => exact (hz.eq_of_final hy').symm
  | head hstep _ ih =>
    rcases hz.cases_head with rfl | ⟨z', hstep', hz⟩
    · simp [hz'] at hstep
    · obtain rfl := Option.some.inj (hstep.symm.trans hstep')
      exact ih hz

end Machine

/-! ## One pass -/

/-- How far one pass through code has come. -/
inductive Mode where
  | falling (s : Store)
  /-- After a jump: all is skipped up to the label. -/
  | seeking (label : String) (s : Store)
  | done (s : Store)
  | trap

def Mode.run (code : Code) (pos : Nat) : Mode → Run
  | falling s => .at pos s
  | seeking label s => code.goto label s
  | done s => .done s
  | trap => .trap

namespace Machine

variable (m : Machine)

def pass (mode : Mode) (instr : Instr) : Mode :=
  match mode with
  | .falling s =>
    match m.act s instr with
    | .next s => .falling s
    | .jump label s => .seeking label s
    | .done s => .done s
    | .trap => .trap
  | .seeking label s => if instr = .label label then .falling s else .seeking label s
  | .done s => .done s
  | .trap => .trap

def flow (code : Code) (mode : Mode) : Mode :=
  List.foldl m.pass mode code

variable {m} {code front back : Code} {s : Store} {label : String}

@[simp]
theorem flow_nil (mode : Mode) : m.flow [] mode = mode := rfl

@[simp]
theorem flow_cons (instr : Instr) (code : Code) (mode : Mode) :
    m.flow (instr :: code) mode = m.flow code (m.pass mode instr) := rfl

@[simp]
theorem flow_append (code code' : Code) (mode : Mode) :
    m.flow (code ++ code') mode = m.flow code' (m.flow code mode) :=
  List.foldl_append

@[simp]
theorem flow_trap (code : Code) : m.flow code .trap = .trap := by
  induction code with
  | nil => rfl
  | cons instr code ih => exact ih

@[simp]
theorem flow_done (code : Code) (s : Store) : m.flow code (.done s) = .done s := by
  induction code with
  | nil => rfl
  | cons instr code ih => exact ih

@[simp]
theorem pass_label (name : String) (s : Store) : m.pass (.falling s) (.label name) = .falling s :=
  rfl

@[simp]
theorem pass_jump (target : String) (s : Store) :
    m.pass (.falling s) (.jump target) = .seeking target s := rfl

theorem mem_labels {name : String} : name ∈ code.labels ↔ .label name ∈ code := by
  simp only [Code.labels, List.mem_filterMap]
  constructor
  · rintro ⟨instr, hinstr, hname⟩
    split at hname
    · obtain rfl := Option.some.inj hname
      exact hinstr
    · simp at hname
  · intro h
    exact ⟨_, h, rfl⟩

theorem flow_seeking (h : label ∉ code.labels) :
    m.flow code (.seeking label s) = .seeking label s := by
  induction code with
  | nil => rfl
  | cons instr code ih =>
    rw [mem_labels, List.mem_cons, not_or] at h
    rw [flow_cons, pass, if_neg (Ne.symm h.1)]
    exact ih fun hmem => h.2 (mem_labels.mp hmem)

@[simp]
theorem pass_seeking_label : m.pass (.seeking label s) (.label label) = .falling s := by
  simp [pass]

theorem pass_seeking_of_ne {instr : Instr} (h : instr ≠ .label label) :
    m.pass (.seeking label s) instr = .seeking label s := by
  simp [pass, h]

/-! ## Passes are runs -/

theorem goto_middle (h : (front ++ .label label :: back).labels.Nodup) :
    Code.goto (front ++ .label label :: back) label s = .at front.length s := by
  have hfront : .label label ∉ front := by
    intro hmem
    have hlabels : (front ++ .label label :: back).labels =
        front.labels ++ label :: back.labels := by
      simp [Code.labels]
    rw [hlabels, List.nodup_append] at h
    exact h.2.2 label (mem_labels.mpr hmem) label (by simp) rfl
  rw [Code.goto, if_pos (by simp), List.idxOf_append, if_neg hfront, List.idxOf_cons_self,
    Nat.zero_add]

theorem steps_flow (front part back : Code) (mode : Mode)
    (h : (front ++ part ++ back).labels.Nodup) :
    m.Steps (front ++ part ++ back) (mode.run (front ++ part ++ back) front.length)
      ((m.flow part mode).run (front ++ part ++ back) (front.length + part.length)) := by
  induction part generalizing front mode with
  | nil => exact .refl
  | cons instr part ih =>
    have hcode : front ++ (instr :: part) ++ back = front ++ [instr] ++ part ++ back := by simp
    have hlength : front.length + (instr :: part).length = (front ++ [instr]).length + part.length := by
      simp
      omega
    rw [hlength, hcode, flow_cons]
    rw [hcode] at h
    refine .trans ?_ (ih (front ++ [instr]) (m.pass mode instr) h)
    have hget : (front ++ [instr] ++ part ++ back)[front.length]? = some instr := by simp
    cases mode with
    | falling s =>
      refine .single ?_
      simp only [Mode.run, step, hget, Option.map_some, pass, List.length_append,
        List.length_singleton]
      cases m.act s instr <;> rfl
    | seeking label s =>
      by_cases hl : instr = .label label
      · subst hl
        rw [pass_seeking_label]
        refine .single ?_
        have hgoto : Code.goto (front ++ [.label label] ++ part ++ back) label s =
            .at front.length s := by
          simpa using goto_middle (s := s) (by simpa using h)
        simp only [Mode.run]
        rw [hgoto]
        simp only [step, hget, Option.map_some, List.length_append, List.length_singleton]
        rfl
      · rw [pass_seeking_of_ne hl]
        exact .refl
    | done s => exact .refl
    | trap => exact .refl

end Machine

end Flatword
