import Flatword.Proofs.Balance
import Flatword.Proofs.Machine

/-!
# Straight code

Most of the code of an expression has no labels, no jumps and no calls. It names words of the table, and the
heads of structs only where they lie at scratch places. Which words it may write is a parameter, a `Leave`.
-/

namespace Flatword

/-! ## What instructions refer to -/

/-- The variables that a destination names. -/
def Dest.names : Dest → List String
  | var name => [name]
  | indirect base index => base :: index.toList

/-- The variables that a source names. -/
def Src.names : Src → List String
  | var name => [name]
  | immediate _ => []
  | indirect base index => base :: index.toList

namespace Instr

/-- The variables that an instruction reads or writes, with those that lead it there. -/
def names : Instr → List String
  | const instr => instr.names
  | set dest src => dest.names ++ src.names
  | clear name | inc name | dec name | not name | push name | pop name | ifZero name _
  | ifNonzero name _ => [name]
  | arith _ dest src => [dest, src]
  | ifCompare _ left right _ => [left, right]
  | _ => []

/-- The words that are written out in an instruction. -/
def immediates : Instr → List String
  | const instr => instr.immediates
  | set _ (.immediate hex) => [hex]
  | _ => []

/-- The label that a jump needs. That of a jump inside an initialisation stands inside one as
well. -/
def goal? : Instr → Option Instr
  | const instr => instr.goal?.map const
  | jump target | ifZero _ target | ifNonzero _ target | ifCompare _ _ _ target =>
    some (label target)
  | _ => none

/-- The variable that an instruction writes by its name. -/
def written? : Instr → Option String
  | const instr => instr.written?
  | set (.var name) _ | clear name | inc name | dec name | not name | arith _ name _ | pop name =>
    some name
  | _ => none

/-- What a call goes to. -/
def callee? : Instr → Option String
  | const instr => instr.callee?
  | call target => some target
  | _ => none

/-- An instruction that names variables of a kind only, and writes words out in full. -/
@[mk_iff]
structure Refers (N : String → Prop) (instr : Instr) : Prop where
  names : ∀ name ∈ instr.names, N name
  immediates : ∀ hex ∈ instr.immediates, ∃ w : Word, hex = Hex.ofWord w

def Straight (N : String → Prop) (instr : Instr) : Prop :=
  instr.isStraight = true ∧ instr.Refers N

variable {N : String → Prop}

theorem straight_iff {instr : Instr} {n i : List String} (h : instr.isStraight = true)
    (hn : instr.names = n) (hi : instr.immediates = i) :
    instr.Straight N ↔ (∀ name ∈ n, N name) ∧ ∀ hex ∈ i, ∃ w : Word, hex = Hex.ofWord w := by
  simp only [Straight, refers_iff, h, hn, hi, true_and]

end Instr

def Code.Straight (N : String → Prop) (code : Code) : Prop :=
  ∀ instr ∈ code, instr.Straight N

namespace Code

variable {N : String → Prop} {code code' : Code}

@[simp]
theorem straight_nil : Code.Straight N [] := by
  simp [Straight]

@[simp]
theorem straight_append : Code.Straight N (code ++ code') ↔ code.Straight N ∧ code'.Straight N :=
  List.forall_mem_append

end Code

/-! ## Operands and scratch places -/

/-- A slot of the table, as far as its name, its kind and its place go. -/
def Ground.Lists (g : Ground) (x : Slot) : Prop :=
  ∃ y ∈ g.slots, y.asmName = x.asmName ∧ y.kind = x.kind ∧ y.address = x.address

/-- What every operand is: a slot of the table, or a value without a place. -/
def Ground.Backs (g : Ground) (x : Slot) : Prop :=
  (x.kind = .constant ∨ x.kind = .void) ∧ x.address = none ∨ g.Lists x

structure Ground.Fair (g : Ground) : Prop where
  registers : ∀ r ∈ g.registers, r.unmarked ∈ g.slots ∧ r.address ≠ none
  result : ∃ y ∈ g.slots, y.asmName = "r0" ∧ y.kind ≠ .struct
  filled : ∀ y ∈ g.slots, y.content ≠ none → y.kind ≠ .struct
  shapes : ∀ shape, Shape.array shape ∈ g.catalog →
    0 < shape.dimensions.length ∧ shape.dimensions.length ≤ shape.strides.length

namespace Scope

/-- What code may name: words, and the heads of structs at scratch places. -/
def Names (z : Scope) (name : String) : Prop :=
  ∃ y ∈ z.ground.slots, y.asmName = name ∧ (y.kind ≠ .struct ∨ z.isTemp y = true)

/-- A scope at a later time: scratch places are still scratch places. -/
structure Rises (s t : Scope) : Prop where
  ground : t.ground = s.ground
  taken : ∀ target, s.reuse.taken? = some target → t.reuse.taken? = some target

theorem Rises.refl (s : Scope) : s.Rises s :=
  ⟨rfl, fun _ h => h⟩

theorem Rises.trans {s t u : Scope} (h : s.Rises t) (h' : t.Rises u) : s.Rises u :=
  ⟨h'.ground.trans h.ground, fun target ht => h'.taken target (h.taken target ht)⟩

theorem Rises.isTemp {s t : Scope} (h : s.Rises t) {slot : Slot} (hs : s.isTemp slot = true) :
    t.isTemp slot = true := by
  obtain ⟨a, ha⟩ : ∃ a, slot.address = some a :=
    Option.isSome_iff_exists.mp (Bool.and_eq_true_iff.mp hs).1
  simp only [Scope.isTemp, ha, Option.isSome_some, Bool.true_and, Bool.or_eq_true] at hs ⊢
  refine hs.imp (fun hregister => ?_) fun htaken => ?_
  · rw [Pool.contains_iff] at hregister ⊢
    have hslots : t.pool.slots = s.pool.slots := congrArg Ground.registers h.ground
    rwa [hslots]
  · obtain ⟨target, htarget, haddress⟩ := (Option.any_eq_true _ _).mp htaken
    exact (Option.any_eq_true _ _).mpr ⟨target, h.taken target htarget, haddress⟩

end Scope

/-- A store to a slot may write the variable of this name: the slot itself, what a dereferenced
constant stands for, or the cells of an array. -/
inductive Ground.Writes (g : Ground) : Slot → String → Prop
  | word {slot} (ho : slot.offset = none) : Writes g slot slot.asmName
  | resolved {slot y words base name}
      (hk : slot.kind = .constant) (ho : slot.offset = some (.known words))
      (hbase : slot.value? = some base) (hy : y ∈ g.slots)
      (ha : y.address = some (base.toNat + words.toInt).toNat) (h : Writes g y name) :
      Writes g slot name
  | cell {slot y item base i name}
      (hk : slot.kind = .array) (ho : slot.offset = none) (hitem : slot.item = some item)
      (hbase : slot.value? = some base) (hi : i < item.totalSize - 1) (hy : y ∈ g.slots)
      (ha : y.address = some (base.toNat + i)) (h : Writes g y name) : Writes g slot name

theorem Ground.Writes.unmarked {g : Ground} {slot : Slot} {name : String} (h : g.Writes slot name) :
    g.Writes slot.unmarked name := by
  cases h with
  | word ho =>
    have hword : g.Writes slot.unmarked slot.unmarked.asmName := .word ho
    exact hword
  | resolved hk ho hbase hy ha h => exact .resolved hk ho hbase hy ha h
  | cell hk ho hitem hbase hi hy ha h => exact .cell hk ho hitem hbase hi hy ha h

namespace Ground

variable {g : Ground} {x : Slot} {z : Scope}

theorem Lists.backs (h : g.Lists x) : g.Backs x :=
  .inr h

theorem lists_of_mem (h : x.unmarked ∈ g.slots) : g.Lists x :=
  ⟨x.unmarked, h, rfl, rfl, rfl⟩

theorem Lists.congr {y : Slot} (h : g.Lists x) (hname : y.asmName = x.asmName)
    (hkind : y.kind = x.kind) (ha : y.address = x.address) : g.Lists y := by
  unfold Lists
  rw [hname, hkind, ha]
  exact h

theorem Backs.congr {y : Slot} (h : g.Backs x) (hname : y.asmName = x.asmName)
    (hkind : y.kind = x.kind) (ha : y.address = x.address) : g.Backs y := by
  refine h.imp (fun h => ?_) fun h => h.congr hname hkind ha
  rw [hkind, ha]
  exact h

theorem backs_constant (hex : String) : g.Backs (Slot.constant hex) :=
  .inl ⟨.inl rfl, rfl⟩

theorem backs_void : g.Backs Slot.void :=
  .inl ⟨.inr rfl, rfl⟩

theorem Lists.names (h : g.Lists x) (hz : z.ground = g) (hkind : x.kind ≠ .struct) :
    z.Names x.asmName := by
  obtain ⟨y, hy, hname, hk, -⟩ := h
  exact ⟨y, hz ▸ hy, hname, .inl (hk ▸ hkind)⟩

theorem Backs.lists (h : g.Backs x) (hconstant : x.kind ≠ .constant) (hvoid : x.kind ≠ .void) :
    g.Lists x := by
  rcases h with ⟨hk | hk, -⟩ | h
  · exact absurd hk hconstant
  · exact absurd hk hvoid
  · exact h

theorem Backs.names_of_isTemp (h : g.Backs x) (hz : z.ground = g) (htemp : z.isTemp x = true) :
    z.Names x.asmName := by
  rcases h with ⟨-, ha⟩ | ⟨y, hy, hname, -, ha⟩
  · simp [Scope.isTemp, ha] at htemp
  · refine ⟨y, hz ▸ hy, hname, .inr ?_⟩
    rwa [Scope.isTemp, ha]

theorem Backs.lists_of_isTemp (h : g.Backs x) (htemp : z.isTemp x = true) : g.Lists x := by
  rcases h with ⟨-, ha⟩ | h
  · simp [Scope.isTemp, ha] at htemp
  · exact h

theorem Backs.names (h : g.Backs x) (hz : z.ground = g) (hconstant : x.kind ≠ .constant)
    (hvoid : x.kind ≠ .void) (hstruct : x.kind ≠ .struct) : z.Names x.asmName :=
  (h.lists hconstant hvoid).names hz hstruct

theorem Backs.names_of_isPlain (h : g.Backs x) (hz : z.ground = g) (hplain : x.isPlain = true) :
    z.Names x.asmName := by
  rw [Slot.isPlain, Bool.and_eq_true] at hplain
  refine h.names hz ?_ ?_ ?_ <;> (intro hk; simp [hk, Kind.isRegular] at hplain)

/-- A scope on the way: the reserved target is a variable, and what is left for after the statement
is straight. -/
structure Tracks (g : Ground) (s : Scope) : Prop where
  ground : s.ground = g
  target : ∀ target ∈ s.reuse.target?, g.Lists target ∧ target.kind ≠ .struct
  post : ∀ z, s.Rises z → s.post.Straight z.Names

end Ground

/-! ## What code may write -/

/-- A ground on which units of some functions are lowered, and the words that their code may write by
name. -/
structure Leave extends Ground where
  function : Option String → Prop
  writable : String → Prop

namespace Leave

variable {g : Ground} {instr : Instr} {cause : Cause} (L : Leave)

abbrev all (g : Ground) : Leave :=
  { g with function := fun _ => True, writable := fun _ => True }

def Takes (slot : Slot) : Prop :=
  ∀ name, L.Writes slot name → L.writable name

def Spare (address : Option Nat) : Prop :=
  ∀ x, L.Lists x → x.address = address → x.offset = none → L.Takes x

structure Fair : Prop extends L.toGround.Fair where
  scratch : ∀ r ∈ L.registers, L.Takes r ∧ L.Spare r.address
  plain : ∀ x, x.unmarked ∈ L.slots → x.isPlain = true → L.Takes x → L.Spare x.address
  returned : L.writable "r0"

/-- A scope on the way: the reserved target may be written. -/
structure Tracks (s : Scope) : Prop extends L.toGround.Tracks s where
  spare : ∀ target ∈ s.reuse.target?, L.Takes target ∧ L.Spare target.address

/-- A later scope. What has been left for after the statement meanwhile writes what it may. -/
structure Onward (s t : Scope) : Prop where
  rises : s.Rises t
  queue : ∃ added : Code, t.post = s.post ++ added ∧
    ∀ instr ∈ added, ∀ name ∈ instr.written?, L.writable name

structure Dest (z : Scope) (name : String) : Prop where
  names : z.Names name
  writable : L.writable name

structure Computes (z : Scope) (instr : Instr) : Prop where
  straight : instr.Straight z.Names
  writes : ∀ name ∈ instr.written?, L.writable name

def Keeps (z : Scope) (code : Code) : Prop :=
  ∀ instr ∈ code, L.Computes z instr

variable {L} {x slot : Slot} {s t u z : Scope} {code code' : Code}

theorem fair_all (h : g.Fair) : (all g).Fair :=
  ⟨h, fun _ _ => ⟨fun _ _ => trivial, fun _ _ _ _ _ _ => trivial⟩,
    fun _ _ _ _ _ _ _ _ _ _ => trivial, trivial⟩

theorem tracks_all (h : g.Tracks s) : (all g).Tracks s :=
  ⟨h, fun _ _ => ⟨fun _ _ => trivial, fun _ _ _ _ _ _ => trivial⟩⟩

theorem Takes.writable (h : L.Takes slot) (ho : slot.offset = none) : L.writable slot.asmName :=
  h _ (.word ho)

theorem Takes.of_unmarked (h : L.Takes slot.unmarked) : L.Takes slot :=
  fun name hwrites => h name hwrites.unmarked

theorem Spare.takes (h : L.Spare slot.address) (hslot : L.Lists slot) :
    L.Takes (slot.withOffset none) ∧ L.writable slot.asmName := by
  have htakes := h (slot.withOffset none) (hslot.congr rfl rfl rfl) rfl rfl
  exact ⟨htakes, htakes slot.asmName (.word rfl)⟩

theorem Onward.refl (s : Scope) : L.Onward s s :=
  ⟨.refl s, [], by simp, by simp⟩

theorem onward_of_post (h : s.Rises t) (hpost : t.post = s.post) : L.Onward s t :=
  ⟨h, [], by simpa using hpost, by simp⟩

theorem Onward.trans (h : L.Onward s t) (h' : L.Onward t u) : L.Onward s u := by
  obtain ⟨added, ht, hadded⟩ := h.queue
  obtain ⟨added', hu, hadded'⟩ := h'.queue
  refine ⟨h.rises.trans h'.rises, added ++ added', ?_, List.forall_mem_append.mpr ⟨hadded, hadded'⟩⟩
  rw [hu, ht, List.append_assoc]

theorem Keeps.straight (h : L.Keeps z code) : code.Straight z.Names :=
  fun instr hinstr => (h instr hinstr).straight

@[simp]
theorem keeps_nil : L.Keeps z [] := by
  simp [Keeps]

@[simp]
theorem keeps_append : L.Keeps z (code ++ code') ↔ L.Keeps z code ∧ L.Keeps z code' :=
  List.forall_mem_append

@[simp]
theorem keeps_cons : L.Keeps z (instr :: code) ↔ L.Computes z instr ∧ L.Keeps z code :=
  List.forall_mem_cons

section Instructions

variable {dest source base : String} {index : Option String}

theorem computes_iff {n i : List String} (h : instr.isStraight = true) (hw : instr.written? = some dest)
    (hn : instr.names = dest :: n) (hi : instr.immediates = i) :
    L.Computes z instr ↔ L.Dest z dest ∧ (∀ name ∈ n, z.Names name) ∧
      ∀ hex ∈ i, ∃ w : Word, hex = Hex.ofWord w := by
  have hstraight := Instr.straight_iff (N := z.Names) h hn hi
  constructor
  · intro hinstr
    obtain ⟨hnames, himmediates⟩ := hstraight.mp hinstr.straight
    exact ⟨⟨hnames dest (by simp), hinstr.writes dest hw⟩, fun name hname => hnames name (by simp [hname]),
      himmediates⟩
  · rintro ⟨hdest, hnames, himmediates⟩
    refine ⟨hstraight.mpr ⟨List.forall_mem_cons.mpr ⟨hdest.names, hnames⟩, himmediates⟩, fun name hname => ?_⟩
    obtain rfl : dest = name := Option.some.inj (hw.symm.trans hname)
    exact hdest.writable

@[simp]
theorem computes_move : L.Computes z (.move dest source) ↔ L.Dest z dest ∧ z.Names source := by
  rw [computes_iff (n := [source]) (i := []) rfl rfl rfl rfl]
  simp

@[simp]
theorem computes_setImmediate (w : Word) :
    L.Computes z (.setImmediate dest (Hex.ofWord w)) ↔ L.Dest z dest := by
  rw [computes_iff (n := []) (i := [Hex.ofWord w]) rfl rfl rfl rfl]
  simp

@[simp]
theorem computes_load : L.Computes z (.set (.var dest) (.indirect base index)) ↔
    L.Dest z dest ∧ z.Names base ∧ ∀ name ∈ index, z.Names name := by
  rw [computes_iff (n := base :: index.toList) (i := []) rfl rfl rfl rfl]
  simp

@[simp]
theorem computes_store : L.Computes z (.set (.indirect base index) (.var source)) ↔
    z.Names base ∧ (∀ name ∈ index, z.Names name) ∧ z.Names source := by
  have hstraight : (Instr.set (.indirect base index) (.var source)).Straight z.Names ↔ _ :=
    Instr.straight_iff (n := base :: index.toList ++ [source]) (i := []) rfl rfl rfl
  refine ⟨fun h => ?_, fun h => ⟨hstraight.mpr ?_, by simp [Instr.written?]⟩⟩
  · have hnames := (hstraight.mp h.straight).1
    cases index <;> simpa using hnames
  · cases index <;> simpa using h

@[simp]
theorem computes_clear : L.Computes z (.clear dest) ↔ L.Dest z dest := by
  rw [computes_iff (n := []) (i := []) rfl rfl rfl rfl]
  simp

@[simp]
theorem computes_not : L.Computes z (.not dest) ↔ L.Dest z dest := by
  rw [computes_iff (n := []) (i := []) rfl rfl rfl rfl]
  simp

@[simp]
theorem computes_arith {op : BinaryOp} :
    L.Computes z (.arith op dest source) ↔ L.Dest z dest ∧ z.Names source := by
  rw [computes_iff (n := [source]) (i := []) rfl rfl rfl rfl]
  simp

@[simp]
theorem computes_stepInstr {up : Bool} : L.Computes z (Lower.stepInstr up dest) ↔ L.Dest z dest := by
  cases up <;> rw [computes_iff (n := []) (i := []) rfl rfl rfl rfl] <;> simp

end Instructions

/-! ## Rules -/

variable {α β : Type} {m : Lower α} {k : α → Lower β} {P Q : Scope → α → Prop}
  {R : Scope → β → Prop} {j : UInt32} {n i : Nat}

/-- A step that takes `n` numbers for labels after the number `j`. What it gives is as stated, seen
from any later scope. -/
def Pens (L : Leave) (j : UInt32) (n : Nat) (m : Lower α) (Q : Scope → α → Prop) : Prop :=
  ∀ ⦃f : Frame⦄ ⦃s : Scope⦄ ⦃v : α⦄ ⦃t : Scope⦄, L.function f.function →
    L.Tracks s → s.session.jumps = j → Gives m f s v t →
      L.Tracks t ∧ L.Onward s t ∧ t.session.jumps = j + UInt32.ofNat n ∧ ∀ z, t.Rises z → Q z v

def Quiet (L : Leave) (m : Lower α) (Q : Scope → α → Prop) : Prop :=
  ∀ j, L.Pens j 0 m Q

theorem Pens.bindOf {C : α → Prop} (hm : L.Pens j n m P) (hC : ∀ z a, P z a → C a)
    (hk : ∀ a, C a → L.Pens (j + UInt32.ofNat n) i (k a) fun z v => P z a → R z v) :
    L.Pens j (n + i) (m >>= k) R := by
  intro f s v t hf hs hj h
  obtain ⟨a, u, ha, h⟩ := gives_bind.mp h
  obtain ⟨hu, hsu, hju, hP⟩ := hm hf hs hj ha
  obtain ⟨ht, hut, hjt, hR⟩ := hk a (hC u a (hP u (.refl u))) hf hu hju h
  refine ⟨ht, hsu.trans hut, ?_, fun z hz => hR z hz (hP z (hut.rises.trans hz))⟩
  rw [hjt, UInt32.add_assoc, ← UInt32.ofNat_add]

theorem Pens.bind (hm : L.Pens j n m P)
    (hk : ∀ a, L.Pens (j + UInt32.ofNat n) i (k a) fun z v => P z a → R z v) :
    L.Pens j (n + i) (m >>= k) R :=
  hm.bindOf (C := fun _ => True) (fun _ _ _ => trivial) fun a _ => hk a

theorem Pens.mono (h : L.Pens j n m P) (hPQ : ∀ z v, z.ground = L.toGround → P z v → Q z v) :
    L.Pens j n m Q := by
  intro f s v t hf hs hj hm
  obtain ⟨ht, hst, hjt, hP⟩ := h hf hs hj hm
  exact ⟨ht, hst, hjt, fun z hz => hPQ z v (hz.ground.trans ht.ground) (hP z hz)⟩

theorem Quiet.pens (h : L.Quiet m Q) : L.Pens j 0 m Q :=
  h j

theorem Quiet.mono (h : L.Quiet m P) (hPQ : ∀ z v, z.ground = L.toGround → P z v → Q z v) : L.Quiet m Q :=
  fun j => (h j).mono hPQ

theorem Quiet.bindOf {C : α → Prop} (hm : L.Quiet m P) (hC : ∀ z a, P z a → C a)
    (hk : ∀ a, C a → L.Pens j n (k a) fun z v => P z a → R z v) : L.Pens j n (m >>= k) R := by
  have hbind := (hm j).bindOf (i := n) (k := k) (R := R) hC (by simpa using hk)
  rwa [Nat.zero_add] at hbind

theorem Quiet.bind (hm : L.Quiet m P) (hk : ∀ a, L.Pens j n (k a) fun z v => P z a → R z v) :
    L.Pens j n (m >>= k) R :=
  hm.bindOf (C := fun _ => True) (fun _ _ _ => trivial) fun a _ => hk a

theorem Pens.bindQuiet (hm : L.Pens j n m P) (hk : ∀ a, L.Quiet (k a) fun z v => P z a → R z v) :
    L.Pens j n (m >>= k) R :=
  hm.bind (i := 0) fun a => hk a _

theorem Quiet.bindQuietOf {C : α → Prop} (hm : L.Quiet m P) (hC : ∀ z a, P z a → C a)
    (hk : ∀ a, C a → L.Quiet (k a) fun z v => P z a → R z v) : L.Quiet (m >>= k) R :=
  fun j => hm.bindOf hC fun a ha => hk a ha j

theorem Quiet.bindQuiet (hm : L.Quiet m P) (hk : ∀ a, L.Quiet (k a) fun z v => P z a → R z v) :
    L.Quiet (m >>= k) R :=
  fun j => hm.bind fun a => hk a j

theorem quiet_pure {v : α} (h : ∀ z, z.ground = L.toGround → Q z v) : L.Quiet (pure v) Q := by
  intro j f s _ t _ hs hj hv
  obtain ⟨rfl, rfl⟩ := gives_pure.mp hv
  exact ⟨hs, .refl s, by simp [hj], fun z hz => h z (hz.ground.trans hs.ground)⟩

theorem pens_fail : L.Pens j n (Lower.fail cause : Lower α) Q :=
  fun _ _ _ _ _ _ _ h => absurd h Lower.gives_fail

theorem quiet_fail : L.Quiet (Lower.fail cause : Lower α) Q :=
  fun _ => pens_fail

theorem pens_fail_bind : L.Pens j n ((Lower.fail cause : Lower α) >>= k) R :=
  fun _ _ _ _ _ _ _ h => absurd (gives_bind.mp h).choose_spec.choose_spec.1 Lower.gives_fail

theorem quiet_fail_bind : L.Quiet ((Lower.fail cause : Lower α) >>= k) R :=
  fun _ => pens_fail_bind

theorem quiet_orFail {o : Option α} (h : ∀ z v, o = some v → Q z v) :
    L.Quiet (Lower.orFail o cause) Q := by
  intro j f s v t _ hs hj hv
  obtain ⟨ho, rfl⟩ := Lower.gives_orFail.mp hv
  exact ⟨hs, .refl s, by simp [hj], fun z _ => h z v ho⟩

theorem quiet_orFail_true {o : Option α} : L.Quiet (Lower.orFail o cause) fun _ _ => True :=
  quiet_orFail fun _ _ _ => trivial

theorem Pens.onSide {leftSide : Bool} (h : L.Pens j n m Q) :
    L.Pens j n (Lower.onSide leftSide m) Q :=
  fun f _ _ _ hf hs hj hm => h (f := { f with leftSide }) hf hs hj (Lower.gives_onSide.mp hm)

theorem quiet_get : L.Quiet (get : Lower Scope) fun z s => L.Tracks s ∧ s.Rises z := by
  intro j f s _ t _ hs hj h
  obtain ⟨rfl, rfl⟩ := gives_get.mp h
  exact ⟨hs, .refl s, by simp [hj], fun z hz => ⟨hs, hz⟩⟩

theorem quiet_read : L.Quiet (read : Lower Frame) fun _ _ => True := by
  intro j f s _ t _ hs hj h
  obtain ⟨rfl, rfl⟩ := gives_read.mp h
  exact ⟨hs, .refl s, by simp [hj], fun _ _ => trivial⟩

theorem quiet_modify {change : Scope → Scope}
    (h : ∀ s, L.Tracks s → L.Tracks (change s) ∧ L.Onward s (change s) ∧
      (change s).session.jumps = s.session.jumps) :
    L.Quiet (modify change : Lower PUnit) fun _ _ => True := by
  intro j f s _ t _ hs hj hm
  obtain rfl := gives_modify.mp hm
  obtain ⟨ht, hst, hjumps⟩ := h s hs
  exact ⟨ht, hst, by simp [hjumps, hj], fun _ _ => trivial⟩

theorem quiet_notes
    (h : ∀ {f s v t}, L.Tracks s → Gives m f s v t → s.Notes t ∧ ∀ z, s.Rises z → Q z v) :
    L.Quiet m Q := by
  intro j f s v t _ hs hj hm
  obtain ⟨hnotes, hQ⟩ := h hs hm
  have hst : s.Rises t := ⟨hnotes.ground, fun target ht => by rw [hnotes.reuse]; exact ht⟩
  refine ⟨⟨⟨hnotes.ground.trans hs.ground, hnotes.reuse ▸ hs.target, fun z hz => ?_⟩,
    hnotes.reuse ▸ hs.spare⟩, onward_of_post hst hnotes.post, ?_, fun z hz => hQ z (hst.trans hz)⟩
  · rw [hnotes.post]
    exact hs.post z (hst.trans hz)
  · rw [hnotes.jumps, hj]
    simp

end Leave

namespace Lower

variable {header : Slot} {v : Lowered} {s z : Scope}

open Ground Leave

variable {L : Leave} {slot : Slot}

/-! ## Scratch places and lookups -/

theorem quiet_release (address : Option Nat) : L.Quiet (release address) fun _ _ => True :=
  quiet_modify fun s hs =>
    have hground := (Scope.Move.release s address).ground
    have hrises : s.Rises { s with pool := s.pool.release address } := ⟨hground, fun _ h => h⟩
    ⟨⟨⟨hground.trans hs.ground, hs.target, fun z hz => hs.post z (hrises.trans hz)⟩, hs.spare⟩,
      onward_of_post hrises rfl, rfl⟩

theorem quiet_releaseOperand (slot : Slot) : L.Quiet (releaseOperand slot) fun _ _ => True := by
  unfold releaseOperand
  refine (quiet_release _).bindQuiet fun _ => ?_
  split
  · exact (quiet_release _).mono fun _ _ _ h _ => h
  · exact quiet_pure fun _ _ _ => trivial

theorem quiet_releaseBeside (kept value : Slot) :
    L.Quiet (releaseBeside kept value) fun _ _ => True := by
  unfold releaseBeside
  split
  · exact quiet_releaseOperand value
  · exact quiet_pure fun _ _ => trivial

theorem quiet_flatRelease (flat : Flat) : L.Quiet flat.release fun _ _ => True := by
  unfold Flat.release
  split
  · exact quiet_release _
  · exact quiet_pure fun _ _ => trivial

theorem spare_of_isTemp (hg : L.Fair) (hs : L.Tracks s) (h : s.isTemp slot = true) :
    L.Spare slot.address := by
  obtain ⟨a, ha⟩ : ∃ a, slot.address = some a :=
    Option.isSome_iff_exists.mp (Bool.and_eq_true_iff.mp h).1
  simp only [Scope.isTemp, ha, Option.isSome_some, Bool.true_and, Bool.or_eq_true] at h
  rw [ha]
  rcases h with hregister | htaken
  · obtain ⟨r, hr, hra⟩ := Pool.contains_iff.mp hregister
    have hslots : s.pool.slots = L.registers := congrArg Ground.registers hs.ground
    exact hra ▸ (hg.scratch r (hslots ▸ hr)).2
  · obtain ⟨target, htarget, hta⟩ := (Option.any_eq_true _ _).mp htaken
    refine of_decide_eq_true hta ▸ (hs.spare target ?_).2
    revert htarget
    cases s.reuse <;> simp [Reuse.taken?, Reuse.target?]

theorem quiet_isTemp (hg : L.Fair) (slot : Slot) :
    L.Quiet (isTemp slot) fun z temp => temp = true → z.isTemp slot = true ∧ L.Spare slot.address := by
  unfold isTemp
  exact quiet_get.bindQuiet fun s => quiet_pure fun z _ hs htemp =>
    ⟨hs.2.isTemp htemp, spare_of_isTemp hg hs.1 htemp⟩

theorem quiet_lookup (name : String) : L.Quiet (lookup name) fun _ x => L.Lists x :=
  quiet_notes fun hs h => ⟨(lookup_notes h).2, fun _ _ => lists_of_mem (hs.ground ▸ (lookup_notes h).1)⟩

theorem quiet_lookupAsm? (asmName : String) :
    L.Quiet (lookupAsm? asmName) fun _ o => ∀ x ∈ o, L.Lists x :=
  quiet_notes fun hs h =>
    ⟨(lookupAsm?_notes h).2, fun _ _ x hx => lists_of_mem (hs.ground ▸ (lookupAsm?_notes h).1 x hx)⟩

structure Worded (L : Leave) (x : Slot) : Prop where
  lists : L.Lists x
  kind : x.kind ≠ .struct

theorem Worded.names (h : Worded L slot) (hz : z.ground = L.toGround) : z.Names slot.asmName :=
  h.lists.names hz h.kind

theorem quiet_lookupAt (address : Nat) : L.Quiet (lookupAt address) fun _ x => Worded L x :=
  quiet_notes fun hs h => ⟨(lookupAt_notes h).2, fun _ _ =>
    ⟨lists_of_mem (hs.ground ▸ (lookupAt_notes h).1), (lookupAt_found h).2⟩⟩

structure Found (L : Leave) (slot : Slot) (words : Int) (x : Slot) : Prop extends Worded L x where
  mem : x.unmarked ∈ L.slots
  base : ∃ base, slot.value? = some base ∧ x.address = some (base.toNat + words).toNat

theorem quiet_slotAt (slot : Slot) (words : Int) :
    L.Quiet (slotAt slot words) fun _ x => Found L slot words x := by
  unfold slotAt
  refine (quiet_orFail (Q := fun _ base => slot.value? = some base) fun _ _ h => h).bindQuiet
    fun base => ?_
  dsimp only
  split
  · refine quiet_notes fun {f s x t} hs h => ⟨(lookupAt_notes h).2, fun _ _ hbase => ?_⟩
    have hmem : x.unmarked ∈ L.slots := hs.ground ▸ (lookupAt_notes h).1
    exact ⟨⟨lists_of_mem hmem, (lookupAt_found h).2⟩, hmem, base, hbase, (lookupAt_found h).1⟩
  · exact quiet_fail

theorem quiet_indexName (address : Nat) : L.Quiet (indexName address) fun z name => z.Names name := by
  unfold indexName
  exact (quiet_lookupAt address).bindQuiet fun x => quiet_pure fun z hz hx => hx.names hz

theorem quiet_resolveConstant (slot : Slot) :
    L.Quiet (resolveConstant slot) fun _ x =>
      (L.Backs slot → L.Backs x) ∧ (L.Takes slot → L.Takes x) := by
  unfold resolveConstant
  split
  · next words hk ho =>
    refine (quiet_slotAt slot _).mono fun _ x _ h => ⟨fun _ => h.lists.backs, fun htakes name hwrites => ?_⟩
    obtain ⟨base, hbase, ha⟩ := h.base
    exact htakes name (.resolved hk ho hbase h.mem ha hwrites.unmarked)
  · exact quiet_fail
  · exact quiet_pure fun _ _ => ⟨id, id⟩

/-! ## Assignments -/

structure Named (L : Leave) (z : Scope) (slot : Slot) : Prop where
  lists : L.Lists slot
  names : z.Names slot.asmName

theorem Worded.named (h : Worded L slot) (hz : z.ground = L.toGround) : Named L z slot :=
  ⟨h.lists, h.names hz⟩

theorem named_register (hg : L.Fair) (hz : z.ground = L.toGround) (h : slot ∈ L.registers) :
    Named L z slot := by
  obtain ⟨hslot, hplaced⟩ := hg.registers slot h
  obtain ⟨a, ha⟩ := Option.ne_none_iff_exists'.mp hplaced
  have htemp : z.isTemp slot = true := by
    have hslots : z.pool.slots = L.registers := congrArg Ground.registers hz
    have hcontains : z.pool.contains (some a) = true :=
      Pool.contains_iff.mpr ⟨slot, hslots ▸ h, ha⟩
    simp [Scope.isTemp, ha, hcontains]
  exact ⟨lists_of_mem hslot, (lists_of_mem hslot).backs.names_of_isTemp hz htemp⟩

structure Scratch (L : Leave) (z : Scope) (slot : Slot) : Prop extends Named L z slot where
  takes : L.Takes slot
  writable : L.writable slot.asmName

theorem Scratch.dest (h : Scratch L z slot) : L.Dest z slot.asmName :=
  ⟨h.names, h.writable⟩

theorem scratch_register (hg : L.Fair) (hz : z.ground = L.toGround) (h : slot ∈ L.registers) :
    Scratch L z slot := by
  have hnamed := named_register hg hz h
  obtain ⟨htakes, hspare⟩ := hg.scratch slot h
  exact ⟨hnamed, htakes, (hspare.takes hnamed.lists).2⟩

theorem scratch_target (hs : L.Tracks s) (hz : z.ground = L.toGround) (h : slot ∈ s.reuse.target?) :
    Scratch L z slot := by
  obtain ⟨hlists, hkind⟩ := hs.target slot h
  obtain ⟨htakes, hspare⟩ := hs.spare slot h
  exact ⟨⟨hlists, hlists.names hz hkind⟩, htakes, (hspare.takes hlists).2⟩

theorem quiet_allocate (hg : L.Fair) : L.Quiet allocate (Scratch L) := by
  intro j f s slot t _ hs hj h
  rcases allocate_cases h with ⟨hreserved, rfl⟩ | ⟨-, pool, hpool, rfl⟩
  · have hslot : slot ∈ s.reuse.target? := by simp [hreserved, Reuse.target?]
    have hrises : s.Rises { s with reuse := .taken slot } :=
      ⟨rfl, fun target h => by simp [hreserved, Reuse.taken?] at h⟩
    refine ⟨⟨⟨hs.ground, by simpa [Reuse.target?] using hs.target slot hslot, fun z hz => ?_⟩,
      by simpa [Reuse.target?] using hs.spare slot hslot⟩, onward_of_post hrises rfl, by simpa using hj,
      fun z hz => scratch_target hs (hz.ground.trans hs.ground) hslot⟩
    exact hs.post z (hrises.trans hz)
  · have hground : ({ s with pool } : Scope).ground = s.ground := (Scope.Move.take hpool).ground
    have hrises : s.Rises { s with pool } := ⟨hground, fun _ h => h⟩
    refine ⟨⟨⟨hground.trans hs.ground, hs.target, fun z hz => hs.post z (hrises.trans hz)⟩, hs.spare⟩,
      onward_of_post hrises rfl, by simpa using hj, fun z hz => ?_⟩
    have hmem : slot ∈ s.ground.registers := Pool.mem_slots_of_allocate? hpool
    exact scratch_register hg (hz.ground.trans (hground.trans hs.ground)) (hs.ground ▸ hmem)

theorem worded_namedConstant? (hg : L.Fair) (hs : s.ground = L.toGround) {constant named : Slot}
    (h : namedConstant? s.session.table constant = some named) : Worded L named := by
  have hmem : named.unmarked ∈ L.slots := hs ▸ Scope.knows_of_mem (namedConstant?_mem h)
  obtain ⟨value, -, hfound⟩ := Option.bind_eq_some_iff.mp h
  have hnamed := List.find?_some hfound
  simp only [Bool.and_eq_true, decide_eq_true_eq] at hnamed
  have hcontent : named.unmarked.content ≠ none := by
    simp [Slot.unmarked, hnamed.2]
  exact ⟨lists_of_mem hmem, hg.filled named.unmarked hmem hcontent⟩

structure NamedFlat (L : Leave) (z : Scope) (flat : Flat) : Prop extends Named L z flat.slot where
  code : L.Keeps z flat.code

section Assign

variable {assign : Slot → Slot → Lower Code} (hg : L.Fair)
  (hassign : ∀ left right, L.Quiet (assign left right) fun z code =>
    L.Takes left → L.Backs left → L.Backs right → L.Keeps z code)

include hg hassign

theorem quiet_intoScratch (slot : Slot) :
    L.Quiet (intoScratch assign slot) fun z flat => L.Backs slot → NamedFlat L z flat := by
  unfold intoScratch
  refine (quiet_allocate hg).bindQuiet fun scratch => (hassign scratch slot).bindQuiet fun code => ?_
  exact quiet_pure fun z _ hcode hscratch hslot =>
    ⟨hscratch.toNamed, hcode hscratch.takes hscratch.lists.backs hslot⟩

theorem quiet_flattenWith (slot : Slot) :
    L.Quiet (flattenWith assign slot) fun z flat => L.Backs slot → NamedFlat L z flat := by
  intro j f s flat t hf hs hj h
  have hsame {x : Slot} (hx : ∀ z : Scope, z.ground = L.toGround → L.Backs slot → Named L z x) :
      L.Tracks s ∧ L.Onward s s ∧ s.session.jumps = j + UInt32.ofNat 0 ∧
        ∀ z, s.Rises z → L.Backs slot → NamedFlat L z { slot := x } :=
    ⟨hs, .refl s, by simpa using hj, fun z hz hslot =>
      ⟨hx z (hz.ground.trans hs.ground) hslot, keeps_nil⟩⟩
  cases flattenWith_cases h with
  | named named hc hn hflat ht =>
    subst hflat ht
    exact hsame fun z hz _ => (worded_namedConstant? hg hs.ground hn).named hz
  | cell words x hk ho hx hflat =>
    subst hflat
    obtain ⟨ht, hst, hjumps, hworded⟩ := quiet_slotAt slot words.toInt j hf hs hj hx
    exact ⟨ht, hst, hjumps, fun z hz _ =>
      ⟨(hworded z hz).named (hz.ground.trans ht.ground), keeps_nil⟩⟩
  | word hk hflat ht =>
    subst hflat ht
    refine hsame fun z hz hslot => ?_
    rcases hk with hplain | ⟨hk, -⟩
    · have hkinds : slot.kind ≠ .constant ∧ slot.kind ≠ .void := by
        rw [Slot.isPlain, Bool.and_eq_true] at hplain
        constructor <;> (intro hk; simp [hk, Kind.isRegular] at hplain)
      exact ⟨hslot.lists hkinds.1 hkinds.2, hslot.names_of_isPlain hz hplain⟩
    · have hlists := hslot.lists (by simp [hk]) (by simp [hk])
      exact ⟨hlists, hlists.names hz (by simp [hk])⟩
  | literal _ _ h | load _ _ h => exact quiet_intoScratch hg hassign slot j hf hs hj h

omit hg in
theorem quiet_fillCells {item : ArrayItem} (hk : header.kind = .array) (ho : header.offset = none)
    (hitem : header.item = some item) (count i : Nat) (digits : List Char)
    (hcount : i + count ≤ item.totalSize - 1) :
    L.Quiet (fillCells assign header count i digits) fun z code => L.Takes header → L.Keeps z code := by
  induction count generalizing i digits with
  | zero => exact quiet_pure fun _ _ _ => keeps_nil
  | succ count ih =>
    unfold fillCells
    refine (quiet_slotAt header i).bindQuiet fun cell => ?_
    split
    · exact quiet_fail
    · refine (hassign cell _).bindQuiet fun code => ?_
      refine (ih (i + 1) _ (by omega)).bindQuiet fun rest => ?_
      refine quiet_pure fun z _ hrest hcode hcell htakes => keeps_append.mpr ⟨?_, hrest htakes⟩
      obtain ⟨base, hbase, ha⟩ := hcell.base
      refine hcode (fun name hwrites => ?_) hcell.lists.backs (backs_constant _)
      exact htakes name (.cell hk ho hitem hbase (by omega) hcell.mem ha hwrites.unmarked)

omit hg in
theorem quiet_fillArray (hk : header.kind = .array) (ho : header.offset = none) (right : Slot) :
    L.Quiet (fillArray assign header right) fun z code => L.Takes header → L.Keeps z code := by
  unfold fillArray
  split
  · exact quiet_fail_bind
  · refine Quiet.bindQuietOf (quiet_orFail (Q := fun _ item => header.item = some item) fun _ _ h => h)
      (fun _ _ h => h) fun item hitem => ?_
    refine quiet_orFail_true.bindQuiet fun hex => ?_
    dsimp only
    split
    · exact quiet_fail_bind
    · exact (quiet_fillCells hassign hk ho hitem _ 0 _ (by omega)).mono fun _ _ _ h _ _ => h

end Assign

theorem quiet_assignConstant (hg : L.Fair) (left right : Slot) :
    L.Quiet (assignConstant left right) fun z code =>
      L.Dest z left.asmName → L.Keeps z code := by
  unfold assignConstant
  refine quiet_orFail_true.bindQuiet fun hex => ?_
  refine quiet_orFail_true.bindQuiet fun value => ?_
  refine quiet_read.bindQuiet fun frame => ?_
  split
  · exact quiet_pure fun z _ _ _ _ hleft => by simpa using hleft
  split
  · exact quiet_pure fun z _ _ _ _ hleft => by simpa using hleft
  refine quiet_get.bindQuiet fun s => ?_
  split
  · next named hnamed =>
    refine quiet_pure fun z hz hs _ _ _ hleft => ?_
    simpa using ⟨hleft, (worded_namedConstant? hg hs.1.ground hnamed).names hz⟩
  · exact quiet_pure fun z _ _ _ _ _ hleft => by simpa using hleft

section Flatten

variable {flatten : Slot → Lower Flat}
  (hflatten : ∀ slot, L.Quiet (flatten slot) fun z flat => L.Backs slot → NamedFlat L z flat)

include hflatten

theorem quiet_assignWord (left right : Slot) :
    L.Quiet (assignWord flatten left right) fun z code =>
      L.Dest z left.asmName → z.Names right.asmName → L.Keeps z code := by
  unfold assignWord
  split
  · refine quiet_pure fun z _ hleft hright => ?_
    split
    · exact keeps_nil
    · simpa using ⟨hleft, hright⟩
  · split
    · exact quiet_pure fun z _ hleft hright => by simpa using ⟨hleft, hright⟩
    · refine (hflatten _).bindQuiet fun offset => (quiet_flatRelease offset).bindQuiet fun _ => ?_
      refine quiet_pure fun z _ _ hoffset hleft hright => ?_
      have hflat := hoffset (backs_constant _)
      simpa using ⟨hflat.code, hleft, hright, hflat.names⟩
  · refine (quiet_indexName _).bindQuiet fun index => quiet_pure fun z _ hindex hleft hright => ?_
    simpa using ⟨hleft, hright, hindex⟩

theorem quiet_assignIndexed (base : Slot) (index : Nat) (right : Slot) :
    L.Quiet (assignIndexed flatten base index right) fun z code =>
      z.Names base.asmName → L.Backs right → L.Keeps z code := by
  unfold assignIndexed
  refine (hflatten right).bindQuiet fun flat => (quiet_indexName index).bindQuiet fun name => ?_
  refine (quiet_flatRelease flat).bindQuiet fun _ => ?_
  refine quiet_pure fun z _ _ hname hflat hbase hright => ?_
  simpa using ⟨(hflat hright).code, hbase, hname, (hflat hright).names⟩

theorem quiet_assignKnown (base : Slot) (words : Int64) (right : Slot) :
    L.Quiet (assignKnown flatten base words right) fun z code =>
      z.Names base.asmName → L.Backs right → L.Keeps z code := by
  unfold assignKnown
  refine (hflatten right).bindQuiet fun flat => ?_
  split
  · refine (quiet_flatRelease flat).bindQuiet fun _ => quiet_pure fun z _ _ hflat hbase hright => ?_
    simpa using ⟨(hflat hright).code, hbase, (hflat hright).names⟩
  · refine (hflatten _).bindQuiet fun offset => (quiet_flatRelease offset).bindQuiet fun _ => ?_
    refine (quiet_flatRelease flat).bindQuiet fun _ => ?_
    refine quiet_pure fun z _ _ _ hoffset hflat hbase hright => ?_
    have hoffset := hoffset (backs_constant _)
    simpa using ⟨(hflat hright).code, hoffset.code, hbase, hoffset.names, (hflat hright).names⟩

end Flatten

theorem quiet_assignCell (left right : Slot) :
    L.Quiet (assignCell left right) fun z code =>
      L.Dest z left.asmName → z.Names right.asmName → L.Keeps z code := by
  unfold assignCell
  split
  · exact quiet_pure fun z _ hleft hright => by simpa using ⟨hleft, hright⟩
  · refine (quiet_slotAt _ _).bindQuiet fun cell => quiet_pure fun z hz hcell hleft _ => ?_
    simpa using ⟨hleft, hcell.names hz⟩
  · refine (quiet_indexName _).bindQuiet fun index => quiet_pure fun z _ hindex hleft hright => ?_
    simpa using ⟨hleft, hright, hindex⟩

theorem quiet_assignRegular (hg : L.Fair) {flatten : Slot → Lower Flat}
    (hflatten : ∀ slot, L.Quiet (flatten slot) fun z flat => L.Backs slot → NamedFlat L z flat)
    (left right : Slot) :
    L.Quiet (assignRegular flatten left right) fun z code =>
      z.Names left.asmName → L.Takes left → L.Backs right → L.Keeps z code := by
  have hword (hk : right.kind ≠ .constant ∧ right.kind ≠ .void ∧ right.kind ≠ .struct) :
      ∀ {z : Scope}, z.ground = L.toGround → L.Backs right → z.Names right.asmName :=
    fun hz hright => hright.names hz hk.1 hk.2.1 hk.2.2
  unfold assignRegular
  split
  · next ho =>
    have hdest {z : Scope} (hleft : z.Names left.asmName) (htakes : L.Takes left) :
        L.Dest z left.asmName := ⟨hleft, htakes.writable ho⟩
    split
    · exact (quiet_assignConstant hg left right).mono fun _ _ _ h hleft htakes _ =>
        h (hdest hleft htakes)
    all_goals first
      | next hk =>
        exact (quiet_assignWord hflatten left right).mono fun z _ hz h hleft htakes hright =>
          h (hdest hleft htakes) (hword (by simp [hk]) hz hright)
      | next hk =>
        exact (quiet_assignCell left right).mono fun z _ hz h hleft htakes hright =>
          h (hdest hleft htakes) (hword (by simp [hk]) hz hright)
      | exact quiet_fail
  · exact (quiet_assignKnown hflatten left _ right).mono fun _ _ _ h hleft _ => h hleft
  · exact (quiet_assignIndexed hflatten left _ right).mono fun _ _ _ h hleft _ => h hleft

theorem quiet_assignWithin (hg : L.Fair) (depth : Nat) (left right : Slot) :
    L.Quiet (assignWithin depth left right) fun z code =>
      L.Takes left → L.Backs left → L.Backs right → L.Keeps z code := by
  induction depth generalizing left right with
  | zero => exact quiet_fail
  | succ depth ih =>
    have hflatten := quiet_flattenWith hg ih
    unfold assignWithin
    refine (quiet_resolveConstant left).bindQuiet fun left' => ?_
    refine (quiet_resolveConstant right).bindQuiet fun right' => ?_
    have hregular (hk : left'.kind ≠ .constant ∧ left'.kind ≠ .void ∧ left'.kind ≠ .struct) :
        L.Quiet (assignRegular (flattenWith (assignWithin depth)) left' right') fun z code =>
          (L.Backs right → L.Backs right') ∧ (L.Takes right → L.Takes right') →
            (L.Backs left → L.Backs left') ∧ (L.Takes left → L.Takes left') →
              L.Takes left → L.Backs left → L.Backs right → L.Keeps z code :=
      (quiet_assignRegular hg hflatten left' right').mono
        fun z _ hz h hright' hleft' htakes hleft hright =>
          h ((hleft'.1 hleft).names hz hk.1 hk.2.1 hk.2.2) (hleft'.2 htakes) (hright'.1 hright)
    split
    · next hk => exact hregular (by simp [hk])
    · next hk => exact hregular (by simp [hk])
    · next hk => exact hregular (by simp [hk])
    · next hk => exact hregular (by simp [hk])
    · next hk =>
      unfold assignArray
      split
      · next ho =>
        exact (quiet_fillArray ih hk ho right').mono fun _ _ _ h _ hleft' htakes _ _ =>
          h (hleft'.2 htakes)
      · exact quiet_fail
      · refine (quiet_assignIndexed hflatten left' _ right').mono
          fun z _ hz h hright' hleft' _ hleft hright => ?_
        exact h ((hleft'.1 hleft).names hz (by simp [hk]) (by simp [hk]) (by simp [hk]))
          (hright'.1 hright)
    all_goals exact quiet_fail

theorem quiet_assign (hg : L.Fair) (left right : Slot) :
    L.Quiet (assign left right) fun z code =>
      L.Takes left → L.Backs left → L.Backs right → L.Keeps z code := by
  unfold assign
  exact quiet_get.bindQuiet fun s =>
    (quiet_assignWithin hg _ left right).mono fun _ _ _ h _ => h

theorem quiet_flatten (hg : L.Fair) (slot : Slot) :
    L.Quiet (flatten slot) fun z flat => L.Backs slot → NamedFlat L z flat := by
  unfold flatten
  exact quiet_get.bindQuiet fun s =>
    (quiet_flattenWith hg (quiet_assignWithin hg _) slot).mono fun _ _ _ h _ => h

/-! ## Operands -/

/-- A scratch place that may be overwritten, with the code that fills it. -/
structure Held (L : Leave) (z : Scope) (v : Lowered) : Prop extends Named L z v.slot where
  writable : L.writable v.slot.asmName
  code : L.Keeps z v.code

structure Backed (L : Leave) (z : Scope) (v : Lowered) : Prop where
  backs : L.Backs v.slot
  code : L.Keeps z v.code

theorem Held.dest (h : Held L z v) : L.Dest z v.slot.asmName :=
  ⟨h.names, h.writable⟩

theorem Held.backed (h : Held L z v) : Backed L z v :=
  ⟨h.lists.backs, h.code⟩

theorem Named.congr {x : Slot} (h : Named L z slot) (hname : x.asmName = slot.asmName)
    (hkind : x.kind = slot.kind) (ha : x.address = slot.address) : Named L z x :=
  ⟨h.lists.congr hname hkind ha, hname ▸ h.names⟩

theorem Scratch.typed {scratch : Slot} (h : Scratch L z scratch) (type : ValueType) :
    Scratch L z (if scratch.kind = .register then { scratch with type } else scratch) := by
  split
  · next hk =>
    refine ⟨h.toNamed.congr rfl rfl rfl, fun name hwrites => ?_, h.writable⟩
    cases hwrites with
    | word => exact h.writable
    | resolved hconstant => simp [hk] at hconstant
    | cell harray => simp [hk] at harray
  · exact h

theorem named_of_isTemp (h : L.Backs slot) (hz : z.ground = L.toGround) (htemp : z.isTemp slot = true) :
    Named L z slot :=
  ⟨h.lists_of_isTemp htemp, h.names_of_isTemp hz htemp⟩

section Operands

variable (hg : L.Fair)

include hg

theorem quiet_loadInPlace (slot : Slot) :
    L.Quiet (loadInPlace slot) fun z v => Named L z slot → L.Spare slot.address → Held L z v := by
  unfold loadInPlace
  refine (quiet_assign hg (slot.withOffset none) slot).bindQuiet fun code => ?_
  have hheld (z : Scope) (hcode : L.Takes (slot.withOffset none) → L.Backs (slot.withOffset none) →
      L.Backs slot → L.Keeps z code) (hslot : Named L z slot) (hspare : L.Spare slot.address) :
      Held L z ⟨slot.withOffset none, code⟩ :=
    have hbase : Named L z (slot.withOffset none) := hslot.congr rfl rfl rfl
    have ⟨htakes, hwritable⟩ := hspare.takes hslot.lists
    ⟨hbase, hwritable, hcode htakes hbase.lists.backs hslot.lists.backs⟩
  dsimp only
  split
  · split
    · exact (quiet_release _).bindQuiet fun _ => quiet_pure fun z _ _ hcode => hheld z hcode
    · exact quiet_pure fun z _ => hheld z
  · exact quiet_pure fun z _ => hheld z

theorem quiet_copyToScratch (slot : Slot) :
    L.Quiet (copyToScratch slot) fun z v => L.Backs slot → Held L z v := by
  unfold copyToScratch
  refine (quiet_allocate hg).bindQuiet fun scratch => ?_
  refine (quiet_assign hg scratch slot).bindQuiet fun code => ?_
  refine (quiet_releaseOperand slot).bindQuiet fun _ => ?_
  exact quiet_pure fun z _ _ hcode hscratch hslot =>
    ⟨(hscratch.typed _).toNamed, (hscratch.typed _).writable,
      hcode hscratch.takes hscratch.lists.backs hslot⟩

theorem quiet_own (slot : Slot) : L.Quiet (own slot) fun z v => L.Backs slot → Held L z v := by
  unfold own
  split
  · exact quiet_fail
  refine (quiet_isTemp hg slot).bindQuiet fun temp => ?_
  split
  · exact (quiet_copyToScratch hg slot).mono fun _ _ _ h _ => h
  next hnot =>
  have htemp : temp = true := by simpa using hnot
  split
  · refine quiet_pure fun z hz hslot hbacks => ?_
    have hnamed := named_of_isTemp hbacks hz (hslot htemp).1
    exact ⟨hnamed, ((hslot htemp).2.takes hnamed.lists).2, keeps_nil⟩
  · exact (quiet_loadInPlace hg slot).mono fun z _ hz h hslot hbacks =>
      h (named_of_isTemp hbacks hz (hslot htemp).1) (hslot htemp).2

theorem quiet_update (op : BinaryOp) (dest value : Slot) :
    L.Quiet (update op dest value) fun z code =>
      L.Dest z dest.asmName → L.Backs value → L.Keeps z code := by
  unfold update
  split
  · exact quiet_pure fun z _ hdest _ => by simpa using hdest
  · refine (quiet_flatten hg value).bindQuiet fun flat => ?_
    refine (quiet_flatRelease flat).bindQuiet fun _ => ?_
    refine (quiet_releaseOperand value).bindQuiet fun _ => ?_
    refine quiet_pure fun z _ _ _ hflat hdest hvalue => ?_
    simpa using ⟨(hflat hvalue).code, hdest, (hflat hvalue).names⟩

theorem quiet_plainIndex (slot : Slot) :
    L.Quiet (plainIndex slot) fun z v => L.Backs slot → Backed L z v := by
  unfold plainIndex
  split
  · exact quiet_pure fun _ _ hslot => ⟨hslot, keeps_nil⟩
  · exact (quiet_own hg slot).mono fun _ _ _ h hslot => (h hslot).backed

theorem quiet_intoBase (slot : Slot) :
    L.Quiet (intoBase slot) fun z v => L.Backs slot → Backed L z v := by
  unfold intoBase
  split
  · exact quiet_pure fun _ _ hslot => ⟨hslot, keeps_nil⟩
  · refine (quiet_flatten hg slot).bindQuiet fun flat => ?_
    refine (quiet_releaseOperand slot).bindQuiet fun _ => quiet_pure fun z _ _ hflat hslot => ?_
    exact ⟨((hflat hslot).lists.congr rfl rfl rfl).backs, (hflat hslot).code⟩

/-! ## Indexes -/

theorem quiet_shiftedIndex (op : BinaryOp) (index : Slot) (word : Word) :
    L.Quiet (shiftedIndex op index word) fun z v => L.Backs index → Backed L z v := by
  unfold shiftedIndex
  refine (quiet_own hg index).bindQuiet fun place => ?_
  refine (quiet_update hg op place.slot _).bindQuiet fun changed => ?_
  refine quiet_pure fun z _ hchanged hplace hindex => ?_
  have hheld := hplace hindex
  exact ⟨hheld.lists.backs,
    keeps_append.mpr ⟨hheld.code, hchanged hheld.dest (backs_constant _)⟩⟩

theorem quiet_scaledIndex (stride : Word) (index : Slot) :
    L.Quiet (scaledIndex stride index) fun z v => L.Backs index → Backed L z v := by
  unfold scaledIndex
  split
  · exact quiet_plainIndex hg index
  · exact quiet_shiftedIndex hg .mul index stride

theorem quiet_advancedIndex (distance : Word) (index : Slot) :
    L.Quiet (advancedIndex distance index) fun z v => L.Backs index → Backed L z v := by
  unfold advancedIndex
  split
  · exact quiet_pure fun _ _ hindex => ⟨hindex, keeps_nil⟩
  · exact quiet_shiftedIndex hg .add index distance

end Operands

end Lower

def Leave.Extends (L : Leave) (z : Scope) (code code' : Code) : Prop :=
  ∃ rest : Code, L.Keeps z rest ∧ code' = code ++ rest

theorem Leave.extends_self {L : Leave} (z : Scope) (code : Code) : L.Extends z code code :=
  ⟨[], keeps_nil, (List.append_nil code).symm⟩

theorem Leave.extends_append {L : Leave} {z : Scope} (code : Code) {rest : Code} (h : L.Keeps z rest) :
    L.Extends z code (code ++ rest) :=
  ⟨rest, h, rfl⟩

namespace Lower

open Ground Leave

variable {L : Leave} {slot : Slot}

def IndexSum.Backed (L : Leave) (sum : IndexSum) : Prop :=
  ∀ total ∈ sum.stored, L.Backs total

section Paths

variable (hg : L.Fair)

include hg

theorem quiet_addStored (sum : IndexSum) (stride : Word) (index : Slot) :
    L.Quiet (sum.addStored stride index) fun z sum' =>
      sum.Backed L → L.Backs index → sum'.Backed L ∧ L.Extends z sum.code sum'.code := by
  unfold IndexSum.addStored
  refine (quiet_scaledIndex hg stride index).bindQuiet fun term => ?_
  dsimp only
  split
  · refine quiet_pure fun z _ hterm _ hindex => ?_
    refine ⟨?_, extends_append sum.code (hterm hindex).code⟩
    simpa [IndexSum.Backed] using (hterm hindex).backs
  · next total htotal =>
    refine (quiet_own hg total).bindQuiet fun place => ?_
    refine (quiet_update hg .add place.slot term.slot).bindQuiet fun added => ?_
    refine quiet_pure fun z _ hadded hplace hterm hsum hindex => ?_
    have hheld := hplace (hsum total htotal)
    refine ⟨?_, ?_⟩
    · simpa [IndexSum.Backed] using hheld.lists.backs
    · rw [List.append_assoc, List.append_assoc]
      refine extends_append sum.code (keeps_append.mpr ⟨(hterm hindex).code, ?_⟩)
      exact keeps_append.mpr ⟨hheld.code, hadded hheld.dest (hterm hindex).backs⟩

omit hg in
theorem quiet_knownCell (leftSide : Bool) (header : Slot) (item : ArrayItem) (strides : List Word)
    (distance : Word) :
    L.Quiet (knownCell leftSide header item strides distance) fun _ x => L.Lists x := by
  unfold knownCell
  split
  · refine Quiet.bindQuiet (fun j => (quiet_lookupAsm? _ j).onSide) fun cell => ?_
    exact quiet_orFail fun _ x hx hcell => hcell x hx
  · refine quiet_orFail_true.bindQuiet fun base => ?_
    exact fun j => ((quiet_lookupAt _ j).mono fun _ _ _ h _ => h.lists).onSide

theorem quiet_computedCell (header : Slot) (item : ArrayItem) (index : Slot) (distance : Word) :
    L.Quiet (computedCell header item index distance) fun z v =>
      L.Backs header → L.Backs index → Backed L z v := by
  unfold computedCell
  refine (quiet_advancedIndex hg distance index).bindQuiet fun total => ?_
  refine quiet_orFail_true.bindQuiet fun address => ?_
  exact quiet_pure fun z _ _ htotal hheader hindex =>
    ⟨hheader.congr rfl rfl rfl, (htotal hindex).code⟩

theorem quiet_summedCell (leftSide : Bool) (header : Slot) (item : ArrayItem)
    (strides : List Word) (sum : IndexSum) :
    L.Quiet (summedCell leftSide header item strides sum) fun z v =>
      L.Backs header → sum.Backed L → L.Backs v.slot ∧ L.Extends z sum.code v.code := by
  unfold summedCell
  split
  · refine (quiet_knownCell leftSide header item strides _).bindQuiet fun cell => ?_
    exact quiet_pure fun z _ hcell _ _ => ⟨hcell.backs, extends_self z sum.code⟩
  · next index hindex =>
    refine (quiet_computedCell hg header item index _).bindQuiet fun cell => ?_
    refine quiet_pure fun z _ hcell hheader hsum => ?_
    have hbacked := hcell hheader (hsum index hindex)
    exact ⟨hbacked.backs, extends_append sum.code hbacked.code⟩

omit hg in
theorem quiet_wordMember (struct member : String) :
    L.Quiet (wordMember struct member) fun _ _ => True :=
  quiet_notes fun _ h => ⟨wordMember_same h ▸ .refl _, fun _ _ => trivial⟩

theorem quiet_memberOfCell (cell : Slot) (struct : String) (index : Nat) (member : String) :
    L.Quiet (memberOfCell cell struct index member) fun z v => L.Backs cell → Backed L z v := by
  unfold memberOfCell
  refine (quiet_wordMember struct member).bindQuiet fun found => ?_
  obtain ⟨distance, template⟩ := found
  refine (quiet_lookupAt index).bindQuiet fun indexSlot => ?_
  split
  · exact quiet_pure fun z _ _ _ hcell => ⟨hcell.congr rfl rfl rfl, keeps_nil⟩
  · refine (quiet_shiftedIndex hg .add indexSlot _).bindQuiet fun total => ?_
    refine quiet_orFail_true.bindQuiet fun address => ?_
    exact quiet_pure fun z _ _ htotal hindex _ hcell =>
      ⟨hcell.congr rfl rfl rfl, (htotal hindex.lists.backs).code⟩

theorem quiet_memberOf (leftSide : Bool) (slot : Slot) (member : String) :
    L.Quiet (memberOf leftSide slot member) fun z v => L.Backs slot → Backed L z v := by
  unfold memberOf
  split
  · refine Quiet.bindQuiet (fun j => (quiet_lookupAsm? _ j).onSide) fun found => ?_
    refine (quiet_orFail (Q := fun _ x => found = some x) fun _ _ h => h).bindQuiet fun x => ?_
    exact quiet_pure fun z _ hx hfound _ => ⟨(hfound x hx).backs, keeps_nil⟩
  · split
    · exact quiet_memberOfCell hg slot _ _ member
    · exact quiet_fail
  · exact quiet_fail

theorem quiet_arrowMember (slot : Slot) (member : String) :
    L.Quiet (arrowMember slot member) fun z v => L.Backs slot → Backed L z v := by
  unfold arrowMember
  split
  · exact quiet_fail_bind
  refine (quiet_wordMember _ member).bindQuiet fun found => ?_
  obtain ⟨distance, template⟩ := found
  refine (quiet_intoBase hg slot).bindQuiet fun base => quiet_pure fun z _ hbase _ hslot => ?_
  exact ⟨(hbase hslot).backs.congr rfl rfl rfl, (hbase hslot).code⟩

/-! ## Computations -/

theorem quiet_stepOperand (up : Bool) (slot : Slot) :
    L.Quiet (stepOperand up slot) fun z v => L.Backs slot → Backed L z v := by
  unfold stepOperand
  refine (quiet_own hg slot).bindQuiet fun temp => quiet_pure fun z _ htemp hslot => ?_
  have hheld := htemp hslot
  exact ⟨hheld.lists.backs, by simpa using ⟨hheld.code, hheld.dest⟩⟩

theorem quiet_operate (op : BinaryOp) (dest value : Slot) :
    L.Quiet (operate op dest value) fun z v => L.Backs dest → L.Backs value → Backed L z v := by
  unfold operate
  refine (quiet_own hg dest).bindQuiet fun temp => (quiet_flatten hg value).bindQuiet fun flat => ?_
  refine (quiet_flatRelease flat).bindQuiet fun _ => ?_
  refine (quiet_releaseBeside temp.slot value).bindQuiet fun _ => ?_
  refine quiet_pure fun z _ _ _ hflat htemp hdest hvalue => ?_
  have hheld := htemp hdest
  have hflat := hflat hvalue
  exact ⟨hheld.lists.backs, by simpa using ⟨hheld.code, hflat.code, hheld.dest, hflat.names⟩⟩

theorem quiet_combine (op : BinaryOp) (left right : Slot) :
    L.Quiet (combine op left right) fun z v => L.Backs left → L.Backs right → Backed L z v := by
  have hordered (first second : Slot) :
      L.Quiet (if (op = .add ∨ op = .sub) ∧ second.isValue 1 then stepOperand (op = .add) first
        else do
          let firstTemp ← isTemp first
          let secondTemp ← isTemp second
          if op.isCommutative && !firstTemp && (secondTemp || second.isConstant) then
            operate op second first
          else operate op first second)
        fun z v => L.Backs first → L.Backs second → Backed L z v := by
    split
    · exact (quiet_stepOperand hg _ first).mono fun _ _ _ h hfirst _ => h hfirst
    refine (quiet_isTemp hg first).bindQuiet fun firstTemp => ?_
    refine (quiet_isTemp hg second).bindQuiet fun secondTemp => ?_
    split
    · exact (quiet_operate hg op second first).mono fun _ _ _ h _ _ hfirst hsecond =>
        h hsecond hfirst
    · exact (quiet_operate hg op first second).mono fun _ _ _ h _ _ => h
  unfold combine
  dsimp only
  by_cases hswap : op = .add ∧ left.isValue 1 = true ∧ (!right.isConstant) = true
  · simp only [hswap, and_self, if_true]
    have h := hordered right left
    simp only [hswap] at h
    exact h.mono fun _ _ _ h hleft hright => h hright hleft
  · simp only [hswap, if_false]
    exact hordered left right

omit hg in
theorem quiet_foldConstant (f : Word → Word) (operand : Lowered) :
    L.Quiet (foldConstant f operand) fun _ v => L.Backs v.slot ∧ v.code = operand.code := by
  unfold foldConstant constantWord
  refine quiet_orFail_true.bindQuiet fun value => ?_
  exact quiet_pure fun _ _ _ => ⟨.inl ⟨.inl rfl, rfl⟩, rfl⟩

omit hg in
theorem quiet_knownAddress (slot : Slot) :
    L.Quiet (knownAddress slot) fun _ x => L.Backs x := by
  unfold knownAddress
  refine quiet_orFail_true.bindQuiet fun address => ?_
  exact quiet_pure fun _ _ _ => .inl ⟨.inl rfl, rfl⟩

omit hg in
theorem quiet_offsetSlot? (offset : Offset) :
    L.Quiet (offsetSlot? offset) fun _ o => ∀ x ∈ o, L.Backs x := by
  unfold offsetSlot?
  split
  · refine quiet_pure fun _ _ x hx => ?_
    split at hx
    · simp at hx
    · rw [← Option.some.inj hx]
      exact backs_constant _
  · refine (quiet_lookupAt _).bindQuiet fun index => quiet_pure fun _ _ hindex x hx => ?_
    rw [← Option.some.inj hx]
    exact hindex.lists.backs

theorem quiet_addOffset (scratch : Slot) (index : Option Slot) :
    L.Quiet (addOffset scratch index) fun z code =>
      L.Dest z scratch.asmName → (∀ x ∈ index, L.Backs x) → L.Keeps z code := by
  unfold addOffset
  split
  · exact quiet_pure fun _ _ _ _ => keeps_nil
  · next index =>
    refine (quiet_flatten hg index).bindQuiet fun flat => ?_
    refine (quiet_flatRelease flat).bindQuiet fun _ => quiet_pure fun z _ _ hflat hscratch hindex => ?_
    have hflat := hflat (hindex index rfl)
    simpa using ⟨hflat.code, hscratch, hflat.names⟩

theorem quiet_computedAddress (slot : Slot) (offset : Offset) :
    L.Quiet (computedAddress slot offset) fun z v => L.Backs slot → Backed L z v := by
  unfold computedAddress
  refine (quiet_allocate hg).bindQuiet fun scratch => ?_
  dsimp only
  generalize hplace : (if scratch.kind = .register then
    { scratch with type := slot.type.pointer } else scratch) = place
  refine (quiet_assign hg place _).bindQuiet fun base => ?_
  refine (quiet_offsetSlot? offset).bindQuiet fun index => ?_
  refine (quiet_addOffset hg place index).bindQuiet fun added => ?_
  refine (quiet_releaseOperand slot).bindQuiet fun _ => ?_
  refine quiet_pure fun z _ _ hadded hindex hbase hscratch hslot => ?_
  have hplace : Scratch L z place := hplace ▸ hscratch.typed _
  refine ⟨hplace.lists.backs, keeps_append.mpr ⟨?_, hadded hplace.dest hindex⟩⟩
  exact hbase hplace.takes hplace.lists.backs (hslot.congr rfl rfl rfl)

theorem quiet_storeValue (target value : Slot) :
    L.Quiet (storeValue target value) fun z code =>
      L.Takes target → L.Backs target → L.Backs value → L.Keeps z code := by
  unfold storeValue
  refine (quiet_assign hg target value).bindQuiet fun code => ?_
  exact (quiet_releaseBeside target value).bindQuiet fun _ => quiet_pure fun _ _ _ hcode => hcode

theorem quiet_updateTarget (op : BinaryOp) (target value : Slot) :
    L.Quiet (updateTarget op target value) fun z code =>
      L.Takes target → L.Backs target → L.Backs value → L.Keeps z code := by
  unfold updateTarget
  split
  · next hplain =>
    exact (quiet_update hg op target value).mono fun z _ hz h htakes htarget hvalue =>
      h ⟨htarget.names_of_isPlain hz hplain, htakes.writable (Slot.offset_of_isPlain hplain)⟩ hvalue
  · refine (quiet_allocate hg).bindQuiet fun scratch => ?_
    refine (quiet_assign hg scratch target).bindQuiet fun loaded => ?_
    refine (quiet_update hg op scratch value).bindQuiet fun changed => ?_
    refine (quiet_assign hg target scratch).bindQuiet fun stored => ?_
    refine (quiet_release _).bindQuiet fun _ => ?_
    refine quiet_pure fun z _ _ hstored hchanged hloaded hscratch htakes htarget hvalue => ?_
    have hbacks := hscratch.lists.backs
    exact keeps_append.mpr ⟨keeps_append.mpr ⟨hloaded hscratch.takes hbacks htarget,
      hchanged hscratch.dest hvalue⟩, hstored htakes htarget hbacks⟩

theorem quiet_fetchResult (type : ValueType) : L.Quiet (fetchResult type) (Backed L) := by
  unfold fetchResult
  split
  · exact quiet_pure fun _ _ => ⟨backs_void, keeps_nil⟩
  · refine (quiet_allocate hg).bindQuiet fun result => quiet_pure fun z hz hresult => ?_
    refine ⟨(hresult.typed type).lists.backs, ?_⟩
    obtain ⟨y, hy, hname, hkind⟩ := hg.result
    have hr0 : z.Names "r0" := ⟨y, hz ▸ hy, hname, .inl hkind⟩
    simpa using ⟨hresult.dest, hr0⟩

end Paths

end Lower

end Flatword
