import Flatword.Proofs.Label
import Flatword.Proofs.Place
import Flatword.Proofs.Straight
import Flatword.Proofs.Weave

/-!
# Code with labels and jumps

The labels that code jumps to stand in the same code, or whoever asked for the code sets them. The
labels that code sets are those of the source in it and one family for each number taken.
-/

namespace Flatword

variable {N : String → Prop} {instr : Instr}

/-! ## Linked code -/

/-- The name of the label that an instruction sets, also inside an initialisation. -/
def Instr.labelName? : Instr → Option String
  | const instr => instr.labelName?
  | label name => some name
  | _ => none

theorem Instr.Straight.plain (h : instr.Straight N) :
    instr.labelName? = none ∧ instr.goal? = none ∧ instr.callee? = none := by
  have hstraight := h.1
  cases instr <;> simp_all [isStraight, labelName?, goal?, callee?]

def Instr.isEarly : Instr → Bool
  | const _ => true
  | _ => false

theorem Instr.Straight.late (h : instr.Straight N) :
    instr.isEarly = false ∧ instr.isComment = false := by
  have hstraight := h.1
  cases instr <;> simp_all [isStraight, isEarly]

/-- The names of all labels that code sets, in order. -/
def Code.labelNames (code : Code) : List String :=
  code.filterMap Instr.labelName?

namespace Code

@[simp]
theorem labelNames_nil : labelNames [] = [] := rfl

@[simp]
theorem labelNames_append (code code' : Code) :
    labelNames (code ++ code') = code.labelNames ++ code'.labelNames :=
  List.filterMap_append

@[simp]
theorem labelNames_label (name : String) (code : Code) :
    labelNames (.label name :: code) = name :: code.labelNames := rfl

@[simp]
theorem labelNames_jump (target : String) (code : Code) :
    labelNames (.jump target :: code) = code.labelNames := rfl

@[simp]
theorem labelNames_clear (name : String) (code : Code) :
    labelNames (.clear name :: code) = code.labelNames := rfl

@[simp]
theorem labelNames_map_const (code : Code) :
    labelNames (code.map Instr.const) = code.labelNames := by
  rw [labelNames, List.filterMap_map]
  rfl

theorem Straight.labelNames {N : String → Prop} {code : Code} (h : code.Straight N) :
    code.labelNames = [] :=
  List.filterMap_eq_nil_iff.mpr fun instr hinstr => (h instr hinstr).plain.1

@[simp]
theorem labels_map_label (names : List String) :
    labels (names.map Instr.label) = names := by
  induction names with
  | nil => rfl
  | cons name names ih => rw [List.map_cons, labels_label, ih]

end Code

/-- All jumps of the code go ahead, to labels further on in it or out by `E`. -/
def Code.Forward (E : Instr → Prop) : Code → Prop
  | [] => True
  | instr :: code => (∀ goal ∈ instr.goal?, goal ∈ code ∨ E goal) ∧ Code.Forward E code

namespace Code.Forward

variable {E E' : Instr → Prop} {code code' : Code}

theorem of_exits (h : ∀ instr ∈ code, ∀ goal ∈ instr.goal?, E goal) : code.Forward E := by
  induction code with
  | nil => trivial
  | cons instr code ih =>
    obtain ⟨hinstr, hcode⟩ := List.forall_mem_cons.mp h
    exact ⟨fun goal hgoal => .inr (hinstr goal hgoal), ih hcode⟩

theorem mono (h : code.Forward E) (hE : ∀ goal, E goal → E' goal) : code.Forward E' := by
  induction code with
  | nil => trivial
  | cons instr code ih => exact ⟨fun goal hgoal => (h.1 goal hgoal).imp_right (hE goal), ih h.2⟩

theorem append (h : code.Forward E) (h' : code'.Forward E')
    (hE : ∀ goal, E goal → goal ∈ code' ∨ E' goal) : Code.Forward E' (code ++ code') := by
  induction code with
  | nil => exact h'
  | cons instr code ih =>
    refine ⟨fun goal hgoal => ?_, ih h.2⟩
    have hfound : goal ∈ code ++ code' ∨ E' goal := by
      rw [List.mem_append, or_assoc]
      exact (h.1 goal hgoal).imp_right (hE goal)
    exact hfound

end Code.Forward

/-- Code whose jumps lead to labels in it or out by `E`. It sets the labels `own`, and others made
from the `n` numbers after `j`. -/
structure Code.Linked (E : Instr → Prop) (own : List String) (j : UInt32) (n : Nat)
    (code : Code) : Prop where
  closed : ∀ instr ∈ code, ∀ goal ∈ instr.goal?, goal ∈ code ∨ E goal
  sets : ∀ name ∈ own, .label name ∈ code
  labels : ∃ made : List String, code.labelNames.Perm (own ++ made) ∧
    Code.Numbered j n (made.map Instr.label)

namespace Code.Linked

variable {E E' : Instr → Prop} {own own' : List String} {j : UInt32} {n k : Nat}
  {code code' inner : Code}

theorem of_exits (h : ∀ instr ∈ code, instr.labelName? = none ∧ ∀ goal ∈ instr.goal?, E goal) :
    code.Linked E [] j 0 where
  closed instr hinstr goal hgoal := .inr ((h instr hinstr).2 goal hgoal)
  sets := by simp
  labels := by
    refine ⟨[], ?_, .of_labels_eq_nil rfl⟩
    rw [List.append_nil, Code.labelNames, List.filterMap_eq_nil_iff.mpr fun x hx => (h x hx).1]

theorem mono (h : code.Linked E own j n) (hE : ∀ goal, E goal → E' goal) :
    code.Linked E' own j n :=
  ⟨fun instr hinstr goal hgoal => (h.closed instr hinstr goal hgoal).imp_right (hE goal), h.sets,
    h.labels⟩

theorem append (h : code.Linked E own j n) (h' : code'.Linked E own' (j + UInt32.ofNat n) k) :
    (code ++ code').Linked E (own ++ own') j (n + k) where
  closed instr hinstr goal hgoal := by
    rw [List.mem_append]
    rcases List.mem_append.mp hinstr with hinstr | hinstr
    · exact (h.closed instr hinstr goal hgoal).imp_left .inl
    · exact (h'.closed instr hinstr goal hgoal).imp_left .inr
  sets name hname := by
    rw [List.mem_append]
    exact (List.mem_append.mp hname).imp (h.sets name) (h'.sets name)
  labels := by
    obtain ⟨made, hperm, hmade⟩ := h.labels
    obtain ⟨made', hperm', hmade'⟩ := h'.labels
    refine ⟨made ++ made', ?_, by rw [List.map_append]; exact hmade.append hmade'⟩
    rw [Code.labelNames_append]
    refine (hperm.append hperm').trans ?_
    rw [List.append_assoc, List.append_assoc]
    exact List.Perm.append_left own (List.perm_append_comm_assoc made own' made')

/-- Labels of one more number are put around code. What the code inside leaves by is set in the code
around it or leaves that as well. -/
theorem enclose (h : inner.Linked E' own (j + 1) n) (names : List String) (hinner : inner ⊆ code)
    (hE : ∀ goal, E' goal → goal ∈ code ∨ E goal)
    (hcode : ∀ instr ∈ code, instr ∈ inner ∨ ∀ goal ∈ instr.goal?, goal ∈ code ∨ E goal)
    (hperm : code.labelNames.Perm (names ++ inner.labelNames))
    (hnames : ∀ name ∈ names, name ∈ Label.family (Numeral.base36 (j + 1)))
    (hnodup : names.Nodup) : code.Linked E own j (1 + n) where
  closed instr hinstr goal hgoal := by
    rcases hcode instr hinstr with hin | hout
    · exact (h.closed instr hin goal hgoal).elim (fun h => .inl (hinner h)) (hE goal)
    · exact hout goal hgoal
  sets name hname := hinner (h.sets name hname)
  labels := by
    obtain ⟨made, hmade, hnumbered⟩ := h.labels
    refine ⟨names ++ made, ?_, ?_⟩
    · refine hperm.trans ((List.Perm.append_left names hmade).trans ?_)
      exact List.perm_append_comm_assoc names own made
    · rw [Nat.add_comm]
      exact hnumbered.enclose (by simp) hnames hnodup

theorem const (h : code.Linked (fun _ => False) [] j n) :
    Code.Linked E [] j n (code.map Instr.const) where
  closed instr hinstr goal hgoal := by
    obtain ⟨x, hx, rfl⟩ := List.mem_map.mp hinstr
    obtain ⟨y, hy, rfl⟩ := Option.map_eq_some_iff.mp hgoal
    have hmem := (h.closed x hx y hy).resolve_right id
    exact .inl (List.mem_map_of_mem hmem)
  sets := by simp
  labels := by
    rw [Code.labelNames_map_const]
    exact h.labels

end Code.Linked

/-! ## Code of expressions -/

/-- An instruction of an expression: it names and writes what it may, it calls functions that there are,
it is for the time when the program runs, and it is no comment. -/
structure Instr.Sits (L : Leave) (z : Scope) (instr : Instr) : Prop where
  refers : instr.Refers z.Names
  called : ∀ callee ∈ instr.callee?, ∃ f ∈ L.functions, callee = Assembly.entry f.name
  writes : ∀ name ∈ instr.written?, L.writable name
  late : instr.isEarly = false ∧ instr.isComment = false

theorem sits_of_isControl {L : Leave} {z : Scope} {instr : Instr} (h : instr.isControl = true)
    (hcomment : instr.isComment = false := by rfl) : instr.Sits L z := by
  refine ⟨⟨?_, ?_⟩, ?_, ?_, ?_⟩ <;> cases instr <;>
    simp_all [Instr.isControl, Instr.names, Instr.immediates, Instr.callee?, Instr.written?, Instr.isEarly]

/-- Code of an expression: each instruction as it should be, and all of them linked by jumps ahead. -/
structure Code.Made (L : Leave) (z : Scope) (E : Instr → Prop) (j : UInt32) (n : Nat)
    (code : Code) : Prop where
  linked : code.Linked E [] j n
  forward : code.Forward E
  sits : ∀ instr ∈ code, instr.Sits L z

namespace Code.Made

variable {L : Leave} {z : Scope} {E E' : Instr → Prop} {j : UInt32} {n k : Nat}
  {code code' : Code}

theorem of_exits (h : ∀ instr ∈ code, instr.Sits L z ∧ instr.labelName? = none ∧
    ∀ goal ∈ instr.goal?, E goal) : code.Made L z E j 0 :=
  ⟨.of_exits fun instr hinstr => (h instr hinstr).2, .of_exits fun instr hinstr => (h instr hinstr).2.2,
    fun instr hinstr => (h instr hinstr).1⟩

theorem of_straight (h : L.Keeps z code) : code.Made L z E j 0 := by
  refine of_exits fun instr hinstr => ?_
  obtain ⟨hstraight, hwrites⟩ := h instr hinstr
  obtain ⟨hlabel, hgoal, hcallee⟩ := hstraight.plain
  exact ⟨⟨hstraight.2, by simp [hcallee], hwrites, hstraight.late⟩, hlabel, by simp [hgoal]⟩

theorem mono (h : code.Made L z E j n) (hE : ∀ goal, E goal → E' goal) : code.Made L z E' j n :=
  ⟨h.linked.mono hE, h.forward.mono hE, h.sits⟩

theorem widen (h : code.Made L z (fun _ => False) j n) : code.Made L z E j n :=
  h.mono fun _ => False.elim

theorem append (h : code.Made L z E j n) (h' : code'.Made L z E (j + UInt32.ofNat n) k) :
    (code ++ code').Made L z E j (n + k) :=
  ⟨h.linked.append h'.linked, h.forward.append h'.forward fun _ => .inr, fun instr hinstr =>
    (List.mem_append.mp hinstr).elim (h.sits instr) (h'.sits instr)⟩

theorem append_straight (h : code.Made L z E j n) (h' : L.Keeps z code') :
    (code ++ code').Made L z E j n :=
  h.append (of_straight h')

theorem straight_append (h : L.Keeps z code) (h' : code'.Made L z E j n) :
    (code ++ code').Made L z E j n := by
  rw [← Nat.zero_add n]
  exact (of_straight h).append (by simpa using h')

theorem enclose {inner : Code} (h : inner.Made L z E' (j + 1) n) (names : List String)
    (hinner : inner ⊆ code)
    (hE : ∀ goal, E' goal → goal ∈ code ∨ E goal)
    (hcode : ∀ instr ∈ code, instr ∈ inner ∨
      instr.Sits L z ∧ ∀ goal ∈ instr.goal?, goal ∈ code ∨ E goal)
    (hforward : code.Forward E)
    (hperm : code.labelNames.Perm (names ++ inner.labelNames))
    (hnames : ∀ name ∈ names, name ∈ Label.family (Numeral.base36 (j + 1)))
    (hnodup : names.Nodup) : code.Made L z E j (1 + n) :=
  ⟨h.linked.enclose names hinner hE (fun instr hinstr => (hcode instr hinstr).imp_right And.right) hperm
    hnames hnodup, hforward, fun instr hinstr => (hcode instr hinstr).elim (h.sits instr) And.left⟩

theorem extend (h : code.Made L z E j n) (h' : L.Extends z code code') :
    code'.Made L z E j n := by
  obtain ⟨rest, hrest, rfl⟩ := h'
  exact h.append_straight hrest

end Code.Made

namespace Lower

variable {b : Branch} {index : Lower Lowered} {k n : Nat} {leftSide : Bool} {steps : List Step}
  {z : Scope}

open Ground Leave

variable {L : Leave}

def Branch.Exits (b : Branch) (goal : Instr) : Prop :=
  goal = .label b.onFalse ∨ goal = .label b.onTrue

theorem Branch.exits_target (b : Branch) : b.Exits (.label b.target) := by
  unfold Branch.target
  split
  · exact .inr rfl
  · exact .inl rfl

theorem Branch.exits_swap {goal : Instr} (h : b.swap.Exits goal) : b.Exits goal :=
  h.symm

def Values (L : Leave) (n : Nat) (m : Lower Lowered) : Prop :=
  ∀ j, L.Pens j n m fun z v => L.Backs v.slot ∧ v.code.Made L z (fun _ => False) j n

def Branches (L : Leave) (n : Nat) (m : Branch → Lower Code) : Prop :=
  ∀ b j, L.Pens j n (m b) fun z code => code.Made L z b.Exits j n

theorem Values.onSide {m : Lower Lowered} (h : Values L n m) : Values L n (Lower.onSide leftSide m) :=
  fun j => (h j).onSide

/-! ## Conditions -/

theorem branches_known (holds : Bool) : Branches L 0 fun b => return branchKnown holds b := by
  intro b j
  refine quiet_pure (fun z _ => .of_exits fun instr hinstr => ?_) j
  unfold branchKnown at hinstr
  split at hinstr
  · obtain rfl := List.mem_singleton.mp hinstr
    refine ⟨⟨⟨by simp [Instr.names], by simp [Instr.immediates]⟩, by simp [Instr.callee?],
      by simp [Instr.written?], rfl, rfl⟩, rfl, ?_⟩
    simpa [Instr.goal?] using b.exits_target
  · simp at hinstr

section Conditions

variable (hg : L.Fair) {left right value : Lower Lowered} {n k : Nat}

include hg

theorem branches_branchValue (hvalue : Values L n value) : Branches L n (branchValue value) := by
  intro b j
  unfold branchValue
  refine (hvalue j).bindQuiet fun v => (quiet_flatten hg v.slot).bindQuiet fun flat => ?_
  refine (quiet_flatRelease flat).bindQuiet fun _ => ?_
  refine (quiet_releaseOperand v.slot).bindQuiet fun _ => ?_
  refine quiet_pure fun z _ _ _ hflat hv => ?_
  have hflat := hflat hv.1
  refine (hv.2.widen.append_straight hflat.code).append (k := 0) (.of_exits fun instr hinstr => ?_)
  obtain rfl := List.mem_singleton.mp hinstr
  have hexit := b.exits_target
  split <;> exact ⟨⟨⟨by simpa [Instr.names] using hflat.names, by simp [Instr.immediates]⟩,
    by simp [Instr.callee?],
      by simp [Instr.written?], rfl, rfl⟩, rfl, by simpa [Instr.goal?] using hexit⟩

theorem branches_branchCompare (op : Comparison) (hleft : Values L n left)
    (hright : Values L k right) : Branches L (n + k) (branchCompare op left right) := by
  intro b j
  have hexit := b.exits_target
  unfold branchCompare
  refine (hleft j).bind fun v => (hright _).bindQuiet fun w => ?_
  refine (quiet_flatten hg v.slot).bindQuiet fun flat => ?_
  dsimp only
  split
  · refine (quiet_flatRelease flat).bindQuiet fun _ => ?_
    refine (quiet_releaseOperand v.slot).bindQuiet fun _ => ?_
    refine (quiet_releaseOperand w.slot).bindQuiet fun _ => ?_
    refine quiet_pure fun z _ _ _ _ hflat hw hv => ?_
    have hflat := hflat hv.1
    refine ((hv.2.append hw.2).widen.append_straight hflat.code).append (k := 0)
      (.of_exits fun instr hinstr => ?_)
    obtain rfl := List.mem_singleton.mp hinstr
    split <;> exact ⟨⟨⟨by simpa [Instr.names] using hflat.names, by simp [Instr.immediates]⟩,
      by simp [Instr.callee?],
      by simp [Instr.written?], rfl, rfl⟩, rfl, by simpa [Instr.goal?] using hexit⟩
  · refine (quiet_flatten hg w.slot).bindQuiet fun flat' => ?_
    refine (quiet_flatRelease flat').bindQuiet fun _ => ?_
    refine (quiet_flatRelease flat).bindQuiet fun _ => ?_
    refine (quiet_releaseOperand v.slot).bindQuiet fun _ => ?_
    refine (quiet_releaseOperand w.slot).bindQuiet fun _ => ?_
    refine quiet_pure fun z _ _ _ _ _ hflat' hflat hw hv => ?_
    have hflat := hflat hv.1
    have hflat' := hflat' hw.1
    refine (((hv.2.append hw.2).widen.append_straight hflat.code).append_straight
      hflat'.code).append (k := 0) (.of_exits fun instr hinstr => ?_)
    obtain rfl := List.mem_singleton.mp hinstr
    exact ⟨⟨⟨by simpa [Instr.names] using ⟨hflat.names, hflat'.names⟩, by simp [Instr.immediates]⟩,
      by simp [Instr.callee?],
      by simp [Instr.written?], rfl, rfl⟩, rfl, by simpa [Instr.goal?] using hexit⟩

end Conditions

theorem pens_newJump (j : UInt32) :
    L.Pens j 1 newJump fun _ id => id = Numeral.base36 (j + 1) := by
  intro f s id t _ hs hj h
  simp only [newJump, gives_bind, gives_get, gives_set, gives_pure] at h
  obtain ⟨_, _, ⟨rfl, rfl⟩, _, _, rfl, rfl, rfl⟩ := h
  have hrises : s.Rises { s with session := s.session.newJump.2 } := ⟨rfl, fun _ h => h⟩
  refine ⟨⟨⟨hs.ground, hs.target, fun z hz => hs.post z (hrises.trans hz)⟩, hs.spare⟩,
    onward_of_post hrises rfl, ?_, fun z _ => ?_⟩
  · rw [← hj]
    rfl
  · rw [← hj]
    rfl

theorem made_joined {b b' : Branch} {next : String} {first second : Code} {j : UInt32}
    (hnext : next ∈ Label.family (Numeral.base36 (j + 1))) (hfirst : first.Made L z b'.Exits (j + 1) n)
    (hsecond : second.Made L z b.Exits (j + 1 + UInt32.ofNat n) k)
    (hexits : ∀ goal, b'.Exits goal → goal = .label next ∨ b.Exits goal) :
    (first ++ [Instr.label next] ++ second ++ [Instr.jump b.onTrue]).Made L z b.Exits j
        (1 + (n + k)) ∧
      (first ++ second ++ [Instr.label next]).Made L z b.Exits j (1 + (n + k)) := by
  have hinner : (first ++ second).Made L z (fun goal => goal = .label next ∨ b.Exits goal) (j + 1)
      (n + k) := (hfirst.mono hexits).append (hsecond.mono fun _ => .inr)
  have hnames : ∀ name ∈ [next], name ∈ Label.family (Numeral.base36 (j + 1)) := by simpa using hnext
  have hfound {code : Code} (hmem : .label next ∈ code) (goal : Instr)
      (h : goal = .label next ∨ b.Exits goal) : goal ∈ code ∨ b.Exits goal :=
    h.imp_left fun (heq : goal = _) => heq ▸ hmem
  constructor
  · refine hinner.enclose [next] ?_ ?_ ?_ ?_ ?_ hnames (by simp)
    · intro x
      simp only [List.mem_append]
      tauto
    · exact hfound (by simp)
    · simp only [List.mem_append, List.mem_singleton]
      rintro x (((hx | rfl) | hx) | rfl)
      · exact .inl (.inl hx)
      · exact .inr ⟨sits_of_isControl rfl, by simp [Instr.goal?]⟩
      · exact .inl (.inr hx)
      · exact .inr ⟨sits_of_isControl rfl, by simp [Instr.goal?, Branch.Exits]⟩
    · have hlast : Code.Forward b.Exits [.jump b.onTrue] := .of_exits (by simp [Instr.goal?, Branch.Exits])
      have hback : Code.Forward b.Exits (.label next :: (second ++ [.jump b.onTrue])) :=
        ⟨by simp [Instr.goal?], hsecond.forward.append hlast fun _ => .inr⟩
      simpa using hfirst.forward.append hback fun goal hgoal =>
        hfound (by simp) goal (hexits goal hgoal)
    · simp only [Code.labelNames_append, Code.labelNames_label, Code.labelNames_jump,
        Code.labelNames_nil, List.append_nil, List.append_assoc]
      exact List.perm_middle
  · refine hinner.enclose [next] (List.subset_append_left _ _) ?_ ?_ ?_ ?_ hnames (by simp)
    · exact hfound (by simp)
    · intro x hx
      rcases List.mem_append.mp hx with hx | hx
      · exact .inl hx
      · rw [List.mem_singleton.mp hx]
        exact .inr ⟨sits_of_isControl rfl, by simp [Instr.goal?]⟩
    · have hback : Code.Forward b.Exits (second ++ [.label next]) :=
        hsecond.forward.append (.of_exits (by simp [Instr.goal?])) fun _ => .inr
      simpa using hfirst.forward.append hback fun goal hgoal =>
        hfound (by simp) goal (hexits goal hgoal)
    · simp only [Code.labelNames_append, Code.labelNames_label, Code.labelNames_nil]
      exact List.perm_append_comm

theorem branches_branchLogical (op : LogicalOp) {left right : Branch → Lower Code}
    (hleft : Branches L n left) (hright : Branches L k right) :
    Branches L (1 + (n + k)) (branchLogical op left right) := by
  intro b j
  unfold branchLogical
  refine (pens_newJump j).bind fun id => ?_
  change L.Pens (j + 1) _ _ _
  have hnext (hid : id = Numeral.base36 (j + 1)) :
      s!"__AND_{id}_next" ∈ Label.family (Numeral.base36 (j + 1)) ∧
        s!"__OR_{id}_next" ∈ Label.family (Numeral.base36 (j + 1)) := by
    rw [← hid]
    simp [Label.family]
  split
  · refine (hleft _ _).bind fun first => (hright _ _).bindQuiet fun second => ?_
    refine quiet_pure fun z _ hsecond hfirst hid => ?_
    exact (made_joined (hnext hid).1 hfirst hsecond fun _ h => h.symm.imp_right .inl).1
  · refine (hleft _ _).bind fun first => (hright _ _).bindQuiet fun second => ?_
    refine quiet_pure fun z _ hsecond hfirst hid => ?_
    exact (made_joined (hnext hid).2 hfirst hsecond fun _ h => h.imp_right .inr).1
  · refine (hleft _ _).bind fun first => (hright _ _).bindQuiet fun second => ?_
    refine quiet_pure fun z _ hsecond hfirst hid => ?_
    exact (made_joined (hnext hid).1 hfirst hsecond fun _ h => h.imp_right .inr).2
  · refine (hleft _ _).bind fun first => (hright _ _).bindQuiet fun second => ?_
    refine quiet_pure fun z _ hsecond hfirst _ => ?_
    have hboth := hfirst.append hsecond
    exact hboth.enclose [] (List.Subset.refl _) (fun _ => .inr) (fun _ => .inl) hboth.forward (.refl _)
      (by simp) .nil

theorem values_materialize (hg : L.Fair) {condition : Branch → Lower Code}
    (hcondition : Branches L n condition) : Values L (1 + n) (materialize condition) := by
  intro j
  unfold materialize
  refine (pens_newJump j).bind fun id => ?_
  change L.Pens (j + 1) _ _ _
  refine (hcondition _ _).bindQuiet fun code => (quiet_allocate hg).bindQuiet fun scratch => ?_
  refine (quiet_assign hg scratch _).bindQuiet fun one => ?_
  refine quiet_pure fun z _ hone hscratch hcode hid => ⟨hscratch.lists.backs, ?_⟩
  have hone := hone hscratch.takes hscratch.lists.backs (backs_constant _)
  have hsits := (Code.Made.of_straight (L := L) (E := fun _ => False) (j := j) hone).sits
  refine hcode.enclose [s!"__CMP_{id}_true", s!"__CMP_{id}_false", s!"__CMP_{id}_end"] ?_ ?_ ?_
    ?_ ?_ ?_ ?_
  · intro x hx
    simp [hx]
  · rintro goal (rfl | rfl) <;> exact .inl (by simp)
  · simp only [List.mem_append, List.mem_cons, List.not_mem_nil, or_false]
    rintro x (((hx | rfl) | hx) | rfl | rfl | rfl | rfl)
    · exact .inl hx
    · exact .inr ⟨sits_of_isControl rfl, by simp [Instr.goal?]⟩
    · exact .inr ⟨hsits x hx, by simp [(hone x hx).straight.plain.2.1]⟩
    · exact .inr ⟨sits_of_isControl rfl, by simp [Instr.goal?]⟩
    · exact .inr ⟨sits_of_isControl rfl, by simp [Instr.goal?]⟩
    · refine .inr ⟨⟨⟨?_, by simp [Instr.immediates]⟩, by simp [Instr.callee?], ?_, rfl, rfl⟩,
        by simp [Instr.goal?]⟩
      · simpa [Instr.names] using hscratch.names
      · simpa [Instr.written?] using hscratch.writable
    · exact .inr ⟨sits_of_isControl rfl, by simp [Instr.goal?]⟩
  · have hrest : Code.Forward (fun _ => False) (.label s!"__CMP_{id}_true" :: (one ++
        [.jump s!"__CMP_{id}_end", .label s!"__CMP_{id}_false", .clear scratch.asmName,
          .label s!"__CMP_{id}_end"])) := by
      refine ⟨by simp [Instr.goal?], ?_⟩
      have hone : one.Forward fun _ => False :=
        .of_exits fun x hx => by simp [(hone x hx).straight.plain.2.1]
      exact hone.append (by simp [Code.Forward, Instr.goal?]) fun _ => False.elim
    have hjoined := hcode.forward.append hrest fun goal hgoal => by
      rcases hgoal with rfl | rfl <;> exact .inl (by simp)
    simpa using hjoined
  · simp only [Code.labelNames_append, Code.labelNames_label, Code.labelNames_jump,
      Code.labelNames_clear, Code.labelNames_nil, hone.straight.labelNames, List.append_assoc]
    exact List.perm_append_comm
  · rw [← hid]
    simp [Label.family]
  · simp [toString]

/-! ## Paths -/

inductive Counted (L : Leave) : List Step → Nat → Prop
  | nil : Counted L [] 0
  | index {value rest n k} (h : Values L n value)
      (hrest : Counted L rest k) : Counted L (.index value :: rest) (n + k)
  | member {name rest k} (hrest : Counted L rest k) :
      Counted L (.member name :: rest) k
  | arrow {name rest k} (hrest : Counted L rest k) :
      Counted L (.arrow name :: rest) k

structure Summed (L : Leave) (z : Scope) (j : UInt32) (n : Nat) (sum : IndexSum) : Prop where
  backed : sum.Backed L
  code : sum.code.Made L z (fun _ => False) j n

section Paths

variable (hg : L.Fair)

include hg

theorem pens_addIndex (sum : IndexSum) (dimension stride : Word) (hindex : Values L n index)
    (j : UInt32) :
    L.Pens j n (sum.addIndex dimension stride index) fun z sum' =>
      ∀ i k, i + UInt32.ofNat k = j → Summed L z i k sum → Summed L z i (k + n) sum' := by
  unfold IndexSum.addIndex
  refine (hindex j).bindQuiet fun v => ?_
  have hcode {z : Scope} {i : UInt32} {k : Nat} (hi : i + UInt32.ofNat k = j)
      (hsum : Summed L z i k sum) (hv : v.code.Made L z (fun _ => False) j n) :
      (sum.code ++ v.code).Made L z (fun _ => False) i (k + n) :=
    hsum.code.append (hi ▸ hv)
  dsimp only
  split
  · refine quiet_orFail_true.bindQuiet fun value => ?_
    split
    · exact quiet_fail_bind
    · exact quiet_pure fun z _ _ hv i k hi hsum => ⟨hsum.backed, hcode hi hsum hv.2⟩
  · refine (quiet_addStored hg _ stride v.slot).mono fun z sum' _ h hv i k hi hsum => ?_
    obtain ⟨hbacked, hextends⟩ := h hsum.backed hv.1
    exact ⟨hbacked, (hcode hi hsum hv.2).extend hextends⟩

theorem pens_addIndexes {dimensions strides : List Word} (hsteps : Counted L steps n)
    (hstrides : dimensions.length ≤ strides.length)
    (hindexes : dimensions.length ≤ (leadingIndexes steps).length) :
    ∃ n₁ n₂, n = n₁ + n₂ ∧ Counted L (steps.drop dimensions.length) n₂ ∧ ∀ sum j,
      L.Pens j n₁ (IndexSum.addIndexes sum dimensions strides (leadingIndexes steps))
        fun z sum' => ∀ i k, i + UInt32.ofNat k = j → Summed L z i k sum →
          Summed L z i (k + n₁) sum' := by
  induction dimensions generalizing strides steps n with
  | nil =>
    refine ⟨0, n, (Nat.zero_add n).symm, by simpa using hsteps, fun sum j => ?_⟩
    rw [IndexSum.addIndexes]
    · exact quiet_pure (fun z _ i k _ hsum => hsum) j
    · simp
  | cons dimension dimensions ih =>
    cases hsteps with
    | index hvalue hrest =>
      cases strides with
      | nil => simp at hstrides
      | cons stride strides =>
        obtain ⟨n₁, n₂, rfl, hcounted, hpens⟩ := ih hrest (by simpa using hstrides)
          (by simpa [leadingIndexes] using hindexes)
        refine ⟨_, n₂, (Nat.add_assoc _ n₁ n₂).symm, by simpa using hcounted, fun sum j => ?_⟩
        rw [leadingIndexes, IndexSum.addIndexes]
        refine (pens_addIndex hg sum dimension stride hvalue j).bind fun sum' => ?_
        refine (hpens sum' _).mono fun z sum'' _ h hfirst i k hi hsum => ?_
        rw [← Nat.add_assoc]
        refine h i _ ?_ (hfirst i k hi hsum)
        rw [UInt32.ofNat_add, ← UInt32.add_assoc, hi]
    | _ => simp [leadingIndexes] at hindexes

/-- A cell of an array, and what follows it. The number of indexes is that of the dimensions, so how
many numbers the indexes take is known only when the shape is. -/
theorem pens_indexArray_bind {β : Type} {header : Slot} (hsteps : Counted L steps n)
    {k : Lowered × Nat → Lower β} {R : Scope → β → Prop} {j : UInt32}
    (hk : ∀ cell taken n₁ n₂, n = n₁ + n₂ → 0 < taken →
      Counted L (steps.drop taken) n₂ → L.Pens (j + UInt32.ofNat n₁) n₂ (k (cell, taken)) fun z v =>
        (L.Backs header → L.Backs cell.slot ∧ cell.code.Made L z (fun _ => False) j n₁) → R z v) :
    L.Pens j n (indexArray leftSide header (leadingIndexes steps) >>= k) R := by
  unfold indexArray
  simp only [bind_assoc]
  refine quiet_get.bindOf (C := fun s => s.session.catalog = L.catalog)
    (fun _ s hs => congrArg Ground.catalog hs.1.ground) fun s hs => ?_
  refine (quiet_orFail (Q := fun _ shape =>
    header.shape.bind s.session.catalog.findArray? = some shape) fun _ _ h => h).bindOf
    (fun _ _ h => h) fun shape hshape => ?_
  obtain ⟨hdimensions, hstrides⟩ := hg.shapes shape (hs ▸ Catalog.mem_of_bind_findArray? hshape)
  refine quiet_orFail_true.bind fun item => ?_
  split
  · rw [bind_assoc]
    exact pens_fail_bind
  next hindexes =>
  obtain ⟨n₁, n₂, rfl, hcounted, hpens⟩ := pens_addIndexes hg hsteps hstrides (by omega)
  simp only [bind_assoc]
  refine (hpens _ j).bind fun sum => ?_
  refine (quiet_summedCell hg leftSide header item shape.strides sum).bind fun cell => ?_
  rw [pure_bind]
  refine (hk cell _ n₁ n₂ rfl hdimensions hcounted).mono fun z v _ h hcell hsum _ _ _ => h ?_
  intro hheader
  have hempty : Summed L z j 0 {} := ⟨by simp [IndexSum.Backed], .of_straight keeps_nil⟩
  have hsum := hsum j 0 (by simp) hempty
  rw [Nat.zero_add] at hsum
  obtain ⟨hbacks, hextends⟩ := hcell hheader hsum.backed
  exact ⟨hbacks, hsum.code.extend hextends⟩

theorem pens_indexPointer (slot : Slot) (hindex : Values L n index) (j : UInt32) :
    L.Pens j n (indexPointer slot index) fun z v =>
      L.Backs slot → L.Backs v.slot ∧ v.code.Made L z (fun _ => False) j n := by
  unfold indexPointer
  split
  · exact pens_fail_bind
  refine (quiet_intoBase hg slot).bind fun base => (hindex j).bindQuiet fun v => ?_
  split
  · refine quiet_orFail_true.bindQuiet fun value => ?_
    refine quiet_pure fun z _ _ hv hbase hslot => ?_
    have hbase := hbase hslot
    exact ⟨hbase.backs.congr rfl rfl rfl, .straight_append hbase.code hv.2⟩
  · refine (quiet_plainIndex hg v.slot).bindQuiet fun plain => ?_
    refine quiet_orFail_true.bindQuiet fun address => ?_
    refine quiet_pure fun z _ _ hplain hv hbase hslot => ?_
    have hbase := hbase hslot
    refine ⟨hbase.backs.congr rfl rfl rfl, ?_⟩
    exact (Code.Made.straight_append hbase.code hv.2).append_straight (hplain hv.1).code

theorem pens_followAfter (leftSide : Bool) (skip : Nat) (here : Lowered)
    (hsteps : Counted L (steps.drop skip) n) (j : UInt32) :
    L.Pens j n (followAfter leftSide skip here steps) fun z v => L.Backs here.slot →
      L.Backs v.slot ∧ ∃ code, v.code = here.code ++ code ∧
        Code.Made L z (fun _ => False) j n code := by
  induction steps generalizing skip here n j with
  | nil =>
    rw [List.drop_nil] at hsteps
    cases hsteps
    rw [followAfter]
    exact quiet_pure (fun z _ hhere => ⟨hhere, [], by simp, .of_straight keeps_nil⟩) j
  | cons step rest ih =>
    cases skip with
    | succ skip =>
      rw [followAfter]
      exact ih skip here (by simpa using hsteps) j
    | zero =>
      rw [List.drop_zero] at hsteps
      -- One step with straight code, and the rest of the path.
      have hstraight {m : Lower Lowered} (hrest : Counted L rest n)
          (hm : L.Quiet m fun z v => L.Backs here.slot → Backed L z v) :
          L.Pens j n (m >>= fun v => followAfter leftSide 0 ⟨v.slot, here.code ++ v.code⟩ rest)
            fun z v => L.Backs here.slot → L.Backs v.slot ∧ ∃ code, v.code = here.code ++ code ∧
              Code.Made L z (fun _ => False) j n code := by
        refine hm.bind fun v => (ih 0 _ hrest j).mono fun z w _ h hv hhere => ?_
        obtain ⟨hbacks, code, hcode, hmade⟩ := h (hv hhere).backs
        refine ⟨hbacks, v.code ++ code, by simpa using hcode, ?_⟩
        exact .straight_append (hv hhere).code hmade
      cases hsteps with
      | @index value _ n₁ n₂ hvalue hrest =>
        rw [followAfter]
        split
        · have hsteps : Counted L (.index value :: rest) (n₁ + n₂) := .index hvalue hrest
          refine pens_indexArray_bind hg hsteps fun cell taken n₁ n₂ hn htaken hcounted => ?_
          obtain ⟨taken, rfl⟩ := Nat.exists_eq_add_of_lt htaken
          refine (ih _ _ (by simpa using hcounted) _).mono fun z w _ h hcell hhere => ?_
          obtain ⟨hbacks, code, hcode, hmade⟩ := h (hcell hhere).1
          refine ⟨hbacks, cell.code ++ code, by simpa using hcode, ?_⟩
          rw [hn]
          exact (hcell hhere).2.append hmade
        · refine (pens_indexPointer hg here.slot hvalue j).bind fun v => ?_
          refine (ih 0 _ hrest _).mono fun z w _ h hv hhere => ?_
          obtain ⟨hbacks, code, hcode, hmade⟩ := h (hv hhere).1
          exact ⟨hbacks, v.code ++ code, by simpa using hcode, (hv hhere).2.append hmade⟩
      | member hrest =>
        rw [followAfter]
        exact hstraight hrest (quiet_memberOf hg leftSide here.slot _)
      | arrow hrest =>
        rw [followAfter]
        exact hstraight hrest (quiet_arrowMember hg here.slot _)

theorem values_lowerLookup (name : String) (hsteps : Counted L steps n) :
    Values L n (lowerLookup name steps) := by
  intro j
  unfold lowerLookup
  refine quiet_read.bind fun frame => (quiet_lookup name).bind fun slot => ?_
  split
  · next hempty =>
    obtain rfl := List.isEmpty_iff.mp hempty
    cases hsteps
    exact quiet_pure (fun z _ hslot _ => ⟨hslot.backs, .of_straight keeps_nil⟩) j
  · refine ((pens_followAfter hg frame.leftSide 0 ⟨slot, []⟩ hsteps j).mono
      fun z v _ h hslot _ => ?_).onSide
    obtain ⟨hbacks, code, hcode, hmade⟩ := h hslot.backs
    rw [List.nil_append] at hcode
    exact ⟨hbacks, hcode ▸ hmade⟩

end Paths

/-! ## Values -/

structure Target (L : Leave) (slot : Slot) : Prop where
  backs : L.Backs slot
  takes : L.Takes slot
  spare : slot.isPlain = true → L.Spare slot.address

theorem target_all {g : Ground} {slot : Slot} (h : g.Backs slot) : Target (.all g) slot :=
  ⟨h, fun _ _ => trivial, fun _ _ _ _ _ _ _ => trivial⟩

theorem quiet_reserveTarget {target : Slot} (htarget : Target L target) (plain : Bool) :
    L.Quiet (reserveTarget plain target) fun _ _ => True := by
  intro j f s x t _ hs hj h
  have h := congrArg Prod.snd ((outcome_reserveTarget plain target f s).symm.trans h)
  dsimp only at h
  split at h
  · next hreserve =>
    obtain rfl := h
    have hrises : s.Rises { s with reuse := .reserved target } :=
      ⟨rfl, fun _ h => by simp [hreserve.1, Reuse.taken?] at h⟩
    have hkind : target.kind ≠ .constant ∧ target.kind ≠ .void ∧ target.kind ≠ .struct := by
      rcases hreserve.2.2.2.1 with hk | hk | hk <;> simp [hk]
    refine ⟨⟨⟨hs.ground, ?_, fun z hz => hs.post z (hrises.trans hz)⟩, ?_⟩, onward_of_post hrises rfl,
      by simpa using hj, fun _ _ => trivial⟩
    · simpa [Reuse.target?] using ⟨htarget.backs.lists hkind.1 hkind.2.1, hkind.2.2⟩
    · simpa [Reuse.target?] using ⟨htarget.takes, htarget.spare (Scope.isPlain_of_reservable hreserve.2)⟩
  · obtain rfl := h
    have hrises : s.Rises { s with reuse := s.reuse.forbid } := by
      refine ⟨rfl, fun target h => ?_⟩
      revert h
      cases s.reuse <;> simp [Reuse.taken?, Reuse.forbid]
    have hsame : ∀ target ∈ s.reuse.forbid.target?, target ∈ s.reuse.target? := by
      cases s.reuse <;> simp [Reuse.target?, Reuse.forbid]
    exact ⟨⟨⟨hs.ground, fun target h => hs.target target (hsame target h), fun z hz =>
      hs.post z (hrises.trans hz)⟩, fun target h => hs.spare target (hsame target h)⟩,
      onward_of_post hrises rfl, by simpa using hj, fun _ _ => trivial⟩

theorem quiet_pushPost {code : Code} (h : ∀ z : Scope, z.ground = L.toGround → L.Keeps z code) :
    L.Quiet (pushPost code) fun _ _ => True :=
  quiet_modify fun s hs =>
    have hrises : s.Rises { s with post := s.post ++ code } := ⟨rfl, fun _ h => h⟩
    ⟨⟨⟨hs.ground, hs.target, fun z hz => Code.straight_append.mpr
      ⟨hs.post z (hrises.trans hz), (h z (hz.ground.trans hs.ground)).straight⟩⟩, hs.spare⟩,
      ⟨hrises, code, rfl, fun instr hinstr => (h s hs.ground instr hinstr).writes⟩, rfl⟩

theorem values_lowerDiscard {operand : Lower Lowered} (hoperand : Values L n operand) :
    Values L n (lowerDiscard operand) := by
  intro j
  unfold lowerDiscard
  refine (hoperand j).bindQuiet fun v => (quiet_releaseOperand v.slot).bindQuiet fun _ => ?_
  exact quiet_pure fun z _ _ hv => ⟨backs_void, hv.2⟩

theorem values_lowerTarget {target : Lower Lowered} (htarget : Values L n target) (namesPlace : Bool) :
    Values L n (lowerTarget namesPlace target) := by
  intro j
  unfold lowerTarget
  split
  · exact pens_fail_bind
  refine (htarget j).onSide.bindQuiet fun place => ?_
  split
  · exact quiet_fail
  · exact quiet_fail
  · exact quiet_fail
  · exact quiet_pure fun _ _ h => h

def Targets (L : Leave) (n : Nat) (m : Lower Lowered) : Prop :=
  ∀ j, L.Pens j n m fun z v => Target L v.slot ∧ v.code.Made L z (fun _ => False) j n

theorem targets_lowerTarget (hg : L.Fair) {target : Expr} (htarget : Values L n target.lowering.value)
    (h : ∀ {f s place t}, L.function f.function → s.ground = L.toGround →
      Gives (lowerTarget target.namesPlace target.lowering.value) f s place t → L.Takes place.slot) :
    Targets L n (lowerTarget target.namesPlace target.lowering.value) := by
  intro j f s place t hf hs hj hgives
  obtain ⟨ht, hst, hjumps, hplace⟩ := values_lowerTarget htarget _ j hf hs hj hgives
  have htakes := h hf hs.ground hgives
  refine ⟨ht, hst, hjumps, fun z hz => ⟨⟨(hplace z hz).1, htakes, fun hplain => ?_⟩, (hplace z hz).2⟩⟩
  have hmem : s.Knows place.slot := lowerTarget_anchored hgives (Slot.offset_of_isPlain hplain)
  exact hg.plain _ (hs.ground ▸ hmem) hplain htakes

section Values

variable (hg : L.Fair) {left right operand target value : Lower Lowered} {n k : Nat}

include hg

theorem values_lowerBinary (op : BinaryOp) (hleft : Values L n left) (hright : Values L k right) :
    Values L (n + k) (lowerBinary op left right) := by
  intro j
  unfold lowerBinary
  refine (hleft j).bind fun v => (hright _).bindQuiet fun w => ?_
  refine (quiet_combine hg op v.slot w.slot).bindQuiet fun result => ?_
  refine quiet_pure fun z _ hresult hw hv => ?_
  have hresult := hresult hv.1 hw.1
  exact ⟨hresult.backs, (hv.2.append hw.2).append_straight hresult.code⟩

theorem values_lowerDeref (hoperand : Values L n operand) : Values L n (lowerDeref operand) := by
  intro j
  unfold lowerDeref
  refine (hoperand j).bindQuiet fun v => ?_
  obtain ⟨slot, code⟩ := v
  dsimp only
  split
  · refine (quiet_slotAt slot 0).bindQuiet fun cell => quiet_pure fun z _ hcell hv => ?_
    exact ⟨hcell.lists.backs, hv.2⟩
  · refine (quiet_intoBase hg slot).bindQuiet fun base => quiet_pure fun z _ hbase hv => ?_
    have hbase := hbase hv.1
    exact ⟨hbase.backs.congr rfl rfl rfl, hv.2.append_straight hbase.code⟩

theorem values_lowerComplement (hoperand : Values L n operand) :
    Values L n (lowerComplement operand) := by
  intro j
  unfold lowerComplement
  refine (hoperand j).bindQuiet fun v => ?_
  split
  · exact (quiet_foldConstant _ v).mono fun z w _ h hv => ⟨h.1, h.2 ▸ hv.2⟩
  · refine (quiet_own hg v.slot).bindQuiet fun temp => quiet_pure fun z _ htemp hv => ?_
    have htemp := htemp hv.1
    rw [List.append_assoc]
    exact ⟨htemp.lists.backs,
      hv.2.append_straight (by simpa using ⟨htemp.code, htemp.dest⟩)⟩

theorem values_lowerNegate (hoperand : Values L n operand) : Values L n (lowerNegate operand) := by
  intro j
  unfold lowerNegate
  refine (hoperand j).bindQuiet fun v => ?_
  split
  · exact (quiet_foldConstant _ v).mono fun z w _ h hv => ⟨h.1, h.2 ▸ hv.2⟩
  · refine (quiet_allocate hg).bindQuiet fun scratch => ?_
    refine (quiet_flatten hg v.slot).bindQuiet fun flat => ?_
    refine (quiet_flatRelease flat).bindQuiet fun _ => ?_
    refine (quiet_releaseOperand v.slot).bindQuiet fun _ => ?_
    refine quiet_pure fun z _ _ _ hflat hscratch hv => ⟨hscratch.lists.backs, ?_⟩
    have hflat := hflat hv.1
    rw [List.append_assoc, List.append_assoc]
    refine hv.2.append_straight ?_
    simpa using ⟨hscratch.dest, hflat.code, hscratch.dest, hflat.names⟩

theorem values_lowerAddressOf (hoperand : Values L n operand) :
    Values L n (lowerAddressOf operand) := by
  intro j
  unfold lowerAddressOf
  refine (hoperand j).bindQuiet fun v => ?_
  obtain ⟨slot, code⟩ := v
  dsimp only
  split
  · exact (quiet_knownAddress slot).bindQuiet fun x => quiet_pure fun z _ hx hv => ⟨hx, hv.2⟩
  · next offset _ =>
    refine (quiet_computedAddress hg slot offset).bindQuiet fun address => ?_
    refine quiet_pure fun z _ haddress hv => ?_
    have haddress := haddress hv.1
    exact ⟨haddress.backs, hv.2.append_straight haddress.code⟩

theorem values_lowerAssign (op : Option BinaryOp) (conflicts : Bool) (htarget : Targets L n target)
    (hvalue : Values L k value) : Values L (n + k) (lowerAssign op conflicts target value) := by
  intro j
  unfold lowerAssign
  refine (htarget j).bindOf (C := fun v => Target L v.slot) (fun _ _ h => h.1) fun place hplace => ?_
  refine (quiet_reserveTarget hplace _).bind fun _ => (hvalue _).bindQuiet fun v => ?_
  have hdone {store : Lower Code} (hstore : L.Quiet store fun z code =>
        L.Takes place.slot → L.Backs place.slot → L.Backs v.slot → L.Keeps z code) :
      L.Quiet (store >>= fun code => pure (Lowered.mk place.slot (place.code ++ v.code ++ code)))
        fun z w =>
        L.Backs v.slot ∧ v.code.Made L z (fun _ => False) (j + UInt32.ofNat n) k → True →
          Target L place.slot ∧ place.code.Made L z (fun _ => False) j n →
            L.Backs w.slot ∧ w.code.Made L z (fun _ => False) j (n + k) :=
    hstore.bindQuiet fun code => quiet_pure fun z _ hcode hv _ hmade =>
      ⟨hplace.backs, (hmade.2.append hv.2).append_straight (hcode hplace.takes hplace.backs hv.1)⟩
  cases op with
  | none =>
    dsimp only
    split
    · exact quiet_fail_bind
    · exact hdone (quiet_storeValue hg place.slot v.slot)
  | some op =>
    dsimp only
    split
    · exact quiet_fail_bind
    · exact hdone (quiet_updateTarget hg op place.slot v.slot)

theorem values_lowerStep (up before : Bool) (htarget : Targets L n target) :
    Values L n (lowerStep up before target) := by
  intro j
  unfold lowerStep
  refine (htarget j).bindOf (i := 0) (C := fun v => Target L v.slot) (fun _ _ h => h.1)
    fun place hplace => Quiet.pens ?_
  obtain ⟨slot, code⟩ := place
  obtain ⟨hslot, htakes, -⟩ := hplace
  dsimp only at hslot htakes ⊢
  split
  · next hplain =>
    have hstep (z : Scope) (hz : z.ground = L.toGround) : L.Keeps z [stepInstr up slot.asmName] := by
      simpa using ⟨hslot.names_of_isPlain hz hplain, htakes.writable (Slot.offset_of_isPlain hplain)⟩
    split
    · exact quiet_pure fun z hz hv => ⟨hslot, hv.2.append_straight (hstep z hz)⟩
    · exact (quiet_pushPost hstep).bindQuiet fun _ => quiet_pure fun z _ _ hv => ⟨hslot, hv.2⟩
  · split
    · exact quiet_fail_bind
    refine (quiet_allocate hg).bindQuiet fun scratch => ?_
    refine (quiet_assign hg scratch slot).bindQuiet fun loaded => ?_
    refine (quiet_assign hg slot scratch).bindQuiet fun stored => ?_
    refine (quiet_releaseOperand slot).bindQuiet fun _ => ?_
    refine quiet_pure fun z _ _ hstored hloaded hscratch hv => ⟨hscratch.lists.backs, ?_⟩
    have hbacks := hscratch.lists.backs
    rw [List.append_assoc, List.append_assoc]
    refine hv.2.append_straight ?_
    simpa using ⟨hloaded hscratch.takes hbacks hslot, hscratch.dest, hstored htakes hslot hbacks⟩

/-! ## Calls -/

omit hg in
theorem lookupAsm?_asmName {asmName : String} {f : Frame} {s t : Scope} {o : Option Slot}
    (h : Gives (lookupAsm? asmName) f s o t) : ∀ x ∈ o, x.asmName = asmName := by
  rw [lookupAsm?, gives_get_bind] at h
  split at h
  · next slot hfound =>
    simp only [gives_bind, gives_pure] at h
    obtain ⟨y, s₁, hnote, rfl, rfl⟩ := h
    obtain ⟨rfl, -⟩ := noteUse_notes hnote
    simpa using List.find?_some hfound
  · obtain ⟨rfl, rfl⟩ := gives_pure.mp h
    simp

theorem pens_passArgument (hvalue : Values L n value) {name : String}
    (hwrites : ∀ y ∈ L.slots, y.asmName = name → L.Takes y) (j : UInt32) :
    L.Pens j n (passArgument value name) fun z code => code.Made L z (fun _ => False) j n := by
  unfold passArgument
  refine (hvalue j).bindQuiet fun v => ?_
  have hlookup : L.Quiet (lookupAsm? name) fun _ o => ∀ x ∈ o, L.Lists x ∧ L.Takes x :=
    quiet_notes fun {f s o t} hs h => ⟨(lookupAsm?_notes h).2, fun _ _ x hx => by
      have hmem : x.unmarked ∈ L.slots := hs.ground ▸ (lookupAsm?_notes h).1 x hx
      exact ⟨lists_of_mem hmem, (hwrites _ hmem (lookupAsm?_asmName h x hx)).of_unmarked⟩⟩
  refine Quiet.bindQuiet (fun j => (hlookup j).onSide) fun found => ?_
  refine (quiet_orFail (Q := fun _ x => found = some x) fun _ _ h => h).bindQuiet fun argument => ?_
  refine (quiet_assign hg argument v.slot).bindQuiet fun code => ?_
  refine (quiet_releaseOperand v.slot).bindQuiet fun _ => ?_
  refine quiet_pure fun z _ _ hcode hargument hfound hv => ?_
  obtain ⟨hlists, htakes⟩ := hfound argument hargument
  exact hv.2.append_straight (hcode htakes hlists.backs hv.1)

end Values

/-- Values that take `n` numbers together when they are computed, the last one first. -/
inductive Tallied (L : Leave) : List (Lower Lowered) → Nat → Prop
  | nil : Tallied L [] 0
  | cons {value values n k} (h : Values L k value)
      (hrest : Tallied L values n) : Tallied L (value :: values) (n + k)

theorem pens_passArguments (hg : L.Fair) {values : List (Lower Lowered)} {names : List String}
    (hvalues : Tallied L values n) (hlength : names.length = values.length)
    (hwrites : ∀ y ∈ L.slots, y.asmName ∈ names → L.Takes y) (j : UInt32) :
    L.Pens j n (passArguments values names) fun z code =>
      code.Made L z (fun _ => False) j n := by
  induction hvalues generalizing names with
  | nil =>
    rw [passArguments]
    · exact quiet_pure (fun z _ => .of_straight keeps_nil) j
    · simp
  | cons hvalue _ ih =>
    cases names with
    | nil => simp at hlength
    | cons name names =>
      rw [passArguments]
      refine (ih (by simpa using hlength) fun y hy h => hwrites y hy (by simp [h])).bind fun later => ?_
      refine (pens_passArgument hg hvalue (fun y hy h => hwrites y hy (by simp [h])) _).bindQuiet
        fun code => ?_
      exact quiet_pure fun z _ hcode hlater => hlater.append hcode

theorem dest_liveValues (hg : L.Fair) {s z : Scope} (hs : L.Tracks s) (hz : s.Rises z) :
    ∀ name ∈ s.liveValues.map Slot.asmName, L.Dest z name := by
  intro name hname
  obtain ⟨slot, hslot, rfl⟩ := List.mem_map.mp hname
  have hground := hz.ground.trans hs.ground
  rcases List.mem_append.mp hslot with htaken | huse
  · refine (scratch_target hs hground ?_).dest
    revert htaken
    cases s.reuse <;> simp [Reuse.taken?, Reuse.target?, eq_comm]
  · obtain ⟨r, hr, rfl⟩ := List.mem_map.mp huse
    have hmem : r.slot ∈ s.ground.registers := List.mem_map_of_mem (List.mem_filter.mp hr).1
    exact (scratch_register hg hground (hs.ground ▸ hmem)).dest

theorem values_lowerCall (hg : L.Fair) (name : String) {args : List (Lower Lowered)}
    (hargs : Tallied L args n) (hwrites : ∀ signature ∈ L.functions, signature.name = name →
      ∀ y ∈ L.slots, y.asmName ∈ signature.arguments → L.Takes y) :
    Values L n (lowerCall name args) := by
  intro j
  unfold lowerCall
  refine quiet_get.bindOf (C := fun s => s.session.functions = L.functions)
    (fun _ s hs => congrArg Ground.functions hs.1.ground) fun s hs => ?_
  refine (quiet_orFail (Q := fun _ signature => s.session.signature? name = some signature)
    fun _ _ h => h).bindOf (fun _ _ h => h) fun signature hsignature => ?_
  have hmem : signature ∈ L.functions := hs ▸ List.mem_of_find?_eq_some hsignature
  have hname : signature.name = name := by simpa using List.find?_some hsignature
  split
  · exact pens_fail_bind
  next hlength =>
  refine (pens_passArguments hg hargs (not_not.mp hlength) (hwrites signature hmem hname) j).bindQuiet
    fun passed => ?_
  refine quiet_get.bindQuiet fun u => (quiet_fetchResult hg _).bindQuiet fun result => ?_
  refine quiet_pure fun z _ hresult hu hpassed _ _ => ⟨hresult.backs, ?_⟩
  have hlive := dest_liveValues hg hu.1 hu.2
  have hpush : Code.Made L z (fun _ => False) (j + UInt32.ofNat n) 0
      ((u.liveValues.map Slot.asmName).reverse.map Instr.push) := by
    refine .of_exits fun instr hinstr => ?_
    obtain ⟨x, hx, rfl⟩ := List.mem_map.mp hinstr
    refine ⟨⟨⟨?_, by simp [Instr.immediates]⟩, by simp [Instr.callee?],
      by simp [Instr.written?], rfl, rfl⟩, rfl, by simp [Instr.goal?]⟩
    simpa [Instr.names] using (hlive x (List.mem_reverse.mp hx)).names
  have hcall : Code.Made L z (fun _ => False) (j + UInt32.ofNat n) 0 [.call s!"__fn_{name}"] := by
    refine .of_exits fun instr hinstr => ?_
    obtain rfl := List.mem_singleton.mp hinstr
    refine ⟨⟨⟨by simp [Instr.names], by simp [Instr.immediates]⟩, ?_, by simp [Instr.written?], rfl, rfl⟩,
      rfl, by simp [Instr.goal?]⟩
    simpa [Instr.callee?] using ⟨signature, hmem, by rw [hname]; rfl⟩
  have hpop : Code.Made L z (fun _ => False) (j + UInt32.ofNat n) 0
      ((u.liveValues.map Slot.asmName).map Instr.pop) := by
    refine .of_exits fun instr hinstr => ?_
    obtain ⟨x, hx, rfl⟩ := List.mem_map.mp hinstr
    refine ⟨⟨⟨?_, by simp [Instr.immediates]⟩, by simp [Instr.callee?], ?_, rfl, rfl⟩, rfl,
      by simp [Instr.goal?]⟩
    · simpa [Instr.names] using (hlive x hx).names
    · simpa [Instr.written?] using (hlive x hx).writable
  exact (((hpassed.append hpush).append hcall).append_straight hresult.code).append hpop

/-! ## Expressions -/

/-- The two ways to lower an expression, with the numbers that they take. -/
structure Lowering.Links (L : Leave) (n k : Nat) (l : Lowering) : Prop where
  value : Values L n l.value
  branch : Branches L k l.branch

namespace Lowering.Links

variable {branch : Branch → Lower Code} {n k : Nat}

theorem ofValue (hg : L.Fair) {value : Lower Lowered} (h : Values L n value) :
    (Lowering.ofValue value).Links L n n :=
  ⟨h, branches_branchValue hg h⟩

theorem ofBranch (hg : L.Fair) (h : Branches L n branch) :
    (Lowering.ofBranch branch).Links L (1 + n) n :=
  ⟨values_materialize hg h, h⟩

theorem ofConstant (hex : String) (fixed : Bool) : (Lowering.ofConstant hex fixed).Links L 0 0 where
  value j := by
    refine quiet_pure (fun z _ => ⟨?_, .of_straight keeps_nil⟩) j
    split <;> exact .inl ⟨.inl rfl, rfl⟩
  branch := branches_known _

theorem swap (h : Branches L n branch) : Branches L n fun b => branch b.swap :=
  fun b j => (h b.swap j).mono fun _ _ _ hcode => hcode.mono fun _ => Branch.exits_swap

end Lowering.Links

end Lower

namespace Expr

open Lower

mutual

def targets : Expr → List Expr
  | constant _ _ _ => []
  | lookup _ path _ => pathTargets path
  | call _ args _ => argsTargets args
  | unary _ operand _ => operand.targets
  | binary _ left right _ | compare _ left right _ | logical _ left right _ =>
    left.targets ++ right.targets
  | assign _ target value _ => target :: (target.targets ++ value.targets)
  | step _ _ target _ => target :: target.targets

def pathTargets : List Access → List Expr
  | [] => []
  | .index index :: rest => index.targets ++ pathTargets rest
  | .member _ :: rest | .arrow _ :: rest => pathTargets rest

def argsTargets : List Expr → List Expr
  | [] => []
  | arg :: rest => arg.targets ++ argsTargets rest

end

mutual

def callees : Expr → List String
  | constant _ _ _ => []
  | lookup _ path _ => pathCallees path
  | call name args _ => name :: argsCallees args
  | unary _ operand _ => operand.callees
  | binary _ left right _ | compare _ left right _ | logical _ left right _ =>
    left.callees ++ right.callees
  | assign _ target value _ => target.callees ++ value.callees
  | step _ _ target _ => target.callees

def pathCallees : List Access → List String
  | [] => []
  | .index index :: rest => index.callees ++ pathCallees rest
  | .member _ :: rest | .arrow _ :: rest => pathCallees rest

def argsCallees : List Expr → List String
  | [] => []
  | arg :: rest => arg.callees ++ argsCallees rest

end

/-- All stores of an expression are to words that may be written. -/
structure Passes (L : Leave) (targets : List Expr) (callees : List String) : Prop where
  target : ∀ target ∈ targets, ∀ {f s place t}, L.function f.function → s.ground = L.toGround →
    Gives (lowerTarget target.namesPlace target.lowering.value) f s place t → L.Takes place.slot
  callee : ∀ callee ∈ callees, ∀ signature ∈ L.functions, signature.name = callee →
    ∀ y ∈ L.slots, y.asmName ∈ signature.arguments → L.Takes y

theorem passes_all {g : Ground} {targets : List Expr} {callees : List String} :
    Passes (.all g) targets callees :=
  ⟨fun _ _ _ _ _ _ _ _ _ _ _ => trivial, fun _ _ _ _ _ _ _ _ _ _ => trivial⟩

section Passes

variable {L : Leave} {targets targets' : List Expr} {callees callees' : List String}

theorem Passes.mono (h : Passes L targets callees) (htargets : targets' ⊆ targets)
    (hcallees : callees' ⊆ callees) : Passes L targets' callees' :=
  ⟨fun target ht => h.target target (htargets ht), fun callee hc => h.callee callee (hcallees hc)⟩

theorem Passes.left (h : Passes L (targets ++ targets') (callees ++ callees')) :
    Passes L targets callees :=
  h.mono (List.subset_append_left ..) (List.subset_append_left ..)

theorem Passes.right (h : Passes L (targets ++ targets') (callees ++ callees')) :
    Passes L targets' callees' :=
  h.mono (List.subset_append_right ..) (List.subset_append_right ..)

end Passes

mutual

/-- How many numbers for labels an expression takes, as a value or as a condition. -/
def jumps : Expr → (asValue : Bool) → Nat
  | constant _ _ _, _ => 0
  | lookup _ path _, _ => pathJumps path
  | call _ args _, _ => argJumps args
  | unary .not operand _, true => 1 + operand.jumps false
  | unary .not operand _, false => operand.jumps false
  | unary _ operand _, _ => operand.jumps true
  | binary _ left right _, _ => left.jumps true + right.jumps true
  | compare _ left right _, true => 1 + (left.jumps true + right.jumps true)
  | compare _ left right _, false => left.jumps true + right.jumps true
  | logical _ left right _, true => 1 + (1 + (left.jumps false + right.jumps false))
  | logical _ left right _, false => 1 + (left.jumps false + right.jumps false)
  | assign _ target value _, _ => target.jumps true + value.jumps true
  | step _ _ target _, _ => target.jumps true

def pathJumps : List Access → Nat
  | [] => 0
  | .index index :: rest => index.jumps true + pathJumps rest
  | .member _ :: rest | .arrow _ :: rest => pathJumps rest

def argJumps : List Expr → Nat
  | [] => 0
  | arg :: rest => argJumps rest + arg.jumps true

end

variable {L : Leave}

mutual

theorem links_lowering (hg : L.Fair) : (e : Expr) → Passes L e.targets e.callees →
    e.lowering.Links L (e.jumps true) (e.jumps false)
  | constant hex fixed _, _ => .ofConstant hex fixed
  | lookup name path _, h => .ofValue hg (values_lowerLookup hg name (counted_pathSteps hg path h))
  | call name args _, h => by
    have hargs := h.mono (List.Subset.refl _) (List.subset_cons_self ..)
    exact .ofValue hg (values_lowerCall hg name (tallied_argValues hg args hargs)
      (h.callee name (by simp [callees])))
  | unary .not operand _, h => .ofBranch hg (Lowering.Links.swap (operand.links_lowering hg h).branch)
  | unary .addressOf operand _, h => by
    refine .ofValue hg ?_
    split
    · exact values_lowerAddressOf hg (operand.links_lowering hg h).value
    · exact fun _ => Leave.pens_fail
  | unary .castVoid operand _, h => .ofValue hg (values_lowerDiscard (operand.links_lowering hg h).value)
  | unary .deref operand _, h => .ofValue hg (values_lowerDeref hg (operand.links_lowering hg h).value)
  | unary .neg operand _, h => .ofValue hg (values_lowerNegate hg (operand.links_lowering hg h).value)
  | unary .bitNot operand _, h =>
    .ofValue hg (values_lowerComplement hg (operand.links_lowering hg h).value)
  | binary op left right _, h => .ofValue hg (values_lowerBinary hg op
      (left.links_lowering hg h.left).value (right.links_lowering hg h.right).value)
  | compare op left right _, h => .ofBranch hg (branches_branchCompare hg op
      (left.links_lowering hg h.left).value (right.links_lowering hg h.right).value)
  | logical op left right _, h => .ofBranch hg (branches_branchLogical op
      (left.links_lowering hg h.left).branch (right.links_lowering hg h.right).branch)
  | assign op target value _, h => by
    have hparts := h.mono (List.subset_cons_self ..) (List.Subset.refl _)
    have htarget := targets_lowerTarget hg (target.links_lowering hg hparts.left).value
      (h.target target (by simp [targets]))
    exact .ofValue hg (values_lowerAssign hg op _ htarget (value.links_lowering hg hparts.right).value)
  | step up before target _, h => by
    have hinner := h.mono (List.subset_cons_self ..) (List.Subset.refl _)
    have htarget := targets_lowerTarget hg (target.links_lowering hg hinner).value
      (h.target target (by simp [targets]))
    exact .ofValue hg (values_lowerStep hg up before htarget)

theorem counted_pathSteps (hg : L.Fair) : (path : List Access) →
    Passes L (pathTargets path) (pathCallees path) → Counted L (pathSteps path) (pathJumps path)
  | [], _ => .nil
  | .index index :: rest, h =>
    .index (index.links_lowering hg h.left).value (counted_pathSteps hg rest h.right)
  | .member _ :: rest, h => .member (counted_pathSteps hg rest h)
  | .arrow _ :: rest, h => .arrow (counted_pathSteps hg rest h)

theorem tallied_argValues (hg : L.Fair) : (args : List Expr) →
    Passes L (argsTargets args) (argsCallees args) → Tallied L (argValues args) (argJumps args)
  | [], _ => .nil
  | arg :: rest, h => .cons (arg.links_lowering hg h.left).value (tallied_argValues hg rest h.right)

end

end Expr

end Flatword
