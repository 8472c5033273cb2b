import Flatword.Proofs.Expansion

/-!
# Statements after more registers

A statement is lowered in a scope of its own, whose pool is taken from the table. With more registers
in the table the pool has them at its end, where code that could do without them does not get to. So
the code of statements is the same.
-/

namespace Flatword

/-! ## Statements in which addresses do not show -/

theorem Expr.hidesAddresses_asStatement (e : Expr) : e.asStatement.hidesAddresses = e.hidesAddresses := by
  unfold asStatement
  split <;> rfl

namespace Stmt

mutual

/-- Whether no expression of a statement takes an address or follows a constant to one. -/
def hidesAddresses : Stmt → Bool
  | expression e | const e => e.hidesAddresses
  | ifElse e thenBranch elseBranch _ =>
    e.hidesAddresses && blockHidesAddresses thenBranch && elseHidesAddresses elseBranch
  | whileLoop e body _ | doLoop body e _ => e.hidesAddresses && blockHidesAddresses body
  | forLoop init e step body _ =>
    init.all Expr.hidesAddresses && e.all Expr.hidesAddresses && step.all Expr.hidesAddresses &&
      blockHidesAddresses body
  | ret value _ => value.all Expr.hidesAddresses
  | block body => blockHidesAddresses body
  | _ => true

def blockHidesAddresses : List Stmt → Bool
  | [] => true
  | stmt :: rest => stmt.hidesAddresses && blockHidesAddresses rest

def elseHidesAddresses : Option (List Stmt) → Bool
  | none => true
  | some body => blockHidesAddresses body

end

end Stmt

namespace Widening

variable {catalog : Catalog} {n : Nat} {t : Table} {x : Slot} {body : String → Emit Code} {line : Line}
  {slots : List Slot} {w : Widening}

/-! ## Marks and values do not matter -/

theorem Covers.congr {slots slots' : List Slot} (h : w.Covers slots catalog)
    (houtline : slots'.map Slot.outline = slots.map Slot.outline) : w.Covers slots' catalog := by
  have hmem {slots slots' : List Slot} (houtline : slots'.map Slot.outline = slots.map Slot.outline)
      {x : Slot} (hx : x ∈ slots') : ∃ y ∈ slots, y.outline = x.outline := by
    have hx : x.outline ∈ slots.map Slot.outline := houtline ▸ List.mem_map_of_mem hx
    exact List.mem_map.mp hx
  have hnames : slots'.map Slot.asmName = slots.map Slot.asmName := by
    have := congrArg (List.map Slot.asmName) houtline
    simpa [Function.comp_def, Slot.outline] using this
  have hview {x y : Slot} (heq : y.outline = x.outline) :
      y.asmName = x.asmName ∧ y.name = x.name ∧ y.scope = x.scope ∧ y.kind = x.kind ∧
        y.address = x.address ∧ y.offset = x.offset ∧ (x.kind = .array → y.content = x.content) := by
    obtain ⟨haddress, hname, hasm, hscope, hkind, -, -, hcontent, -, -, -, hoffset, -⟩ :=
      Slot.mk.inj heq
    refine ⟨hasm, hname, hscope, hkind, haddress, hoffset, fun harray => ?_⟩
    simpa [hkind, harray] using hcontent
  refine ⟨h.limit, fun x hx => ?_, fun x hx => ?_, fun x hx => ?_, fun x hx => ?_,
    hnames ▸ h.distinct, fun x hx => ?_, fun x hx => ?_, fun x hx => ?_, fun x hx => ?_, h.room,
    h.shapes⟩
  · obtain ⟨y, hy, heq⟩ := hmem houtline hx
    exact (hview heq).1 ▸ h.names y hy
  · obtain ⟨y, hy, heq⟩ := hmem houtline hx
    obtain ⟨-, hname, hscope, -⟩ := hview heq
    exact hname ▸ hscope ▸ h.globals y hy
  · have hdrop : (slots'.drop w.count).map Slot.outline = (slots.drop w.count).map Slot.outline := by
      rw [List.map_drop, List.map_drop, houtline]
    obtain ⟨y, hy, heq⟩ := hmem hdrop hx
    exact (hview heq).1 ▸ h.front y hy
  · obtain ⟨y, hy, heq⟩ := hmem houtline hx
    obtain ⟨hname, -, -, hkind, -⟩ := hview heq
    exact hname ▸ hkind ▸ h.registers y hy
  · obtain ⟨y, hy, heq⟩ := hmem houtline hx
    exact (hview heq).2.2.2.1 ▸ h.values y hy
  · obtain ⟨y, hy, heq⟩ := hmem houtline hx
    obtain ⟨-, -, -, hkind, haddress, hoffset, hcontent⟩ := hview heq
    obtain ⟨hconstant, harray⟩ := h.shifts y hy
    rw [hkind, hoffset, haddress] at hconstant harray
    exact ⟨hconstant, fun hk => hcontent hk ▸ harray hk⟩
  · obtain ⟨y, hy, heq⟩ := hmem houtline hx
    obtain ⟨-, -, -, hkind, haddress, -⟩ := hview heq
    exact hkind ▸ haddress ▸ h.addresses y hy
  · obtain ⟨y, hy, heq⟩ := hmem houtline hx
    obtain ⟨hname, -, -, hkind, -⟩ := hview heq
    exact hname ▸ hkind ▸ h.constants y hy

theorem map_outline_unmarked (slots : List Slot) :
    (slots.map Slot.unmarked).map Slot.outline = slots.map Slot.outline := by
  rw [List.map_map]
  rfl

/-! ## Scopes of statements -/

theorem filter_splice (hlimit : w.count + w.more ≤ 10)
    (h : ∀ x ∈ slots.drop n, isRegisterName x.asmName = false) :
    (w.splice n slots).filter (isRegisterName ·.asmName) =
      (slots.filter (isRegisterName ·.asmName)).map w.slot ++ w.added := by
  have hadded : w.added.filter (isRegisterName ·.asmName) = w.added := by
    rw [List.filter_eq_self]
    intro x hx
    obtain ⟨i, -, hi, rfl⟩ := exists_of_mem_added hx
    exact isRegisterName_iff.mpr ⟨i, by omega, rfl⟩
  have hname (slots : List Slot) : (slots.map w.slot).filter (isRegisterName ·.asmName) =
      (slots.filter (isRegisterName ·.asmName)).map w.slot := by
    rw [List.filter_map]
    rfl
  fun_induction splice w n slots with
  | case1 n x rest ih =>
    rw [List.filter_cons, List.filter_cons, ih h]
    cases hx : isRegisterName x.asmName <;> simp [slot, hx]
  | case2 n rest hshape =>
    have hrest : rest.filter (isRegisterName ·.asmName) = [] := by
      cases n with
      | zero => exact List.filter_eq_nil_iff.mpr fun x hx => by simp [h x hx]
      | succ n =>
        cases rest with
        | nil => rfl
        | cons x rest => exact absurd rfl (hshape n x rest rfl)
    rw [List.filter_append, hadded, hname, hrest, List.map_nil, List.append_nil, List.nil_append]

theorem twins_start {s : Session} (h : w.Covers s.table.slots s.catalog) :
    w.Twins (.start s) (.start (w.session s)) := by
  constructor
  · refine ⟨h.congr (map_outline_unmarked s.table.slots), fun x hx => ?_, ?_⟩
    · rw [Scope.registers_start] at hx
      obtain ⟨hmem, hname⟩ := List.mem_filter.mp hx
      exact h.registers x hmem hname
    · simp [Scope.start, Reuse.target?]
  · have hregisters : (w.session s).table.registers = s.table.registers.map w.slot ++ w.added :=
      filter_splice h.limit h.front
    simp [Scope.start, scope, pool, reuse, Pool.ofSlots, hregisters]

section Sentences

open Lower

variable {e : Expr}

theorem follows_allowReuse : Follows w.Twins Eq allowReuse allowReuse := by
  refine follows_modify fun {s _} hs => ?_
  obtain ⟨hs, rfl⟩ := hs
  refine ⟨hs.of_leads (.single (.allow s)), ?_⟩
  simp only [scope]
  cases s.reuse <;> rfl

theorem follows_takePost : Follows w.Twins Eq takePost takePost := by
  unfold takePost
  refine follows_get.bind fun {s _} hs => ?_
  obtain ⟨hs, rfl⟩ := hs
  have htwins : w.Twins { s with post := [] } { w.scope s with post := [] } :=
    ⟨⟨hs.covers, hs.registers, hs.target⟩, rfl⟩
  exact (follows_set htwins).bind fun _ => follows_pure rfl

theorem follows_finish : Follows w.Twins Eq finish finish := by
  unfold finish
  refine follows_get.bind fun {s _} hs => ?_
  obtain ⟨hs, rfl⟩ := hs
  have hinUse : (w.scope s).pool.inUse = s.pool.inUse.map w.slot := inUse_pool s.pool
  rw [hinUse]
  cases s.pool.inUse with
  | nil => exact follows_pure rfl
  | cons x rest => exact follows_fail

theorem follows_whole {m : Lower Code} (h : Follows w.Twins Eq m m) :
    Follows w.Twins Eq (whole m) (whole m) :=
  h.bindSame fun _ => follows_finish.bind fun _ => follows_pure rfl

theorem follows_effect (h : e.hidesAddresses = true) : Follows w.Twins Eq (effect e) (effect e) := by
  unfold effect
  refine follows_allowReuse.bind fun _ => ?_
  refine (repeats_lowering w e h).value.bind fun {v v'} hv => ?_
  have hcheck : checkUsed e v'.slot = checkUsed e v.slot := by
    rw [hv.slot.eq]
    rfl
  have hused : Follows w.Twins Eq (checkUsed e v.slot) (checkUsed e v.slot) := by
    unfold checkUsed
    exact .ite Iff.rfl (fun _ => follows_fail) fun _ => follows_pure rfl
  rw [hcheck]
  refine hused.bind fun _ => ?_
  rw [hv.slot.eq]
  refine (follows_releaseOperand v.slot).bind fun _ => follows_takePost.bindSame fun _ => ?_
  exact follows_pure (by rw [hv.code])

theorem follows_condition (b : Branch) (h : e.hidesAddresses = true) :
    Follows w.Twins Eq (Lower.condition e b) (Lower.condition e b) := by
  unfold Lower.condition
  refine ((repeats_lowering w e h).branch b).bindSame fun code => ?_
  refine follows_get.bind fun {s _} hs => ?_
  obtain ⟨hs, rfl⟩ := hs
  exact .ite Iff.rfl (fun _ => follows_fail_bind) fun _ => follows_pure rfl

theorem follows_returnValue (h : e.hidesAddresses = true) :
    Follows w.Twins Eq (returnValue e) (returnValue e) := by
  unfold returnValue
  refine (repeats_lowering w e h).value.bind fun {v v'} hv => ?_
  refine (flattens_flatten hv.slot).bind fun {flat flat'} hflat => hflat.release.bind fun _ => ?_
  rw [hv.slot.eq]
  refine (follows_releaseOperand v.slot).bind fun _ => follows_takePost.bindSame fun _ => ?_
  exact follows_pure (by rw [hv.code, hflat.code, hflat.asmName])

theorem Fits.setContent {s : Scope} (hs : w.Fits s) (hx : x ∈ s.session.table.slots)
    (hkind : x.kind = .long ∨ x.kind = .fixed) (hex : String) :
    w.Fits { s with session := { s.session with table := s.session.table.setContent x.asmName hex } } ∧
      (w.table s.session.table).setContent x.asmName hex =
        w.table (s.session.table.setContent x.asmName hex) := by
  -- no other slot has the name, and an array has not got it
  have honly : ∀ y ∈ s.session.table.slots, y.asmName = x.asmName → y.kind ≠ .array := by
    intro y hy hname
    have hnodup : (s.session.table.slots.map Slot.asmName).Nodup := by
      have := hs.covers.distinct
      rwa [show s.ground.slots = s.session.table.slots.map Slot.unmarked from rfl, List.map_map] at this
    obtain rfl := List.inj_on_of_nodup_map hnodup hy hx hname
    rcases hkind with hkind | hkind <;> simp [hkind]
  constructor
  · refine ⟨hs.covers.congr ?_, hs.registers, hs.target⟩
    change List.map Slot.outline (List.map Slot.unmarked _) =
      List.map Slot.outline (List.map Slot.unmarked _)
    rw [map_outline_unmarked, map_outline_unmarked]
    refine Table.map_updateAsm _ ({ · with content := some hex, isSet := true }) _ _ fun y hy hname => ?_
    simp [Slot.outline, honly y hy hname]
  · refine updateAsm_table (hs.of_mem hx).1 fun y hy hname => ?_
    simp [slot, honly y hy hname]

theorem follows_constEffect (h : e.hidesAddresses = true) :
    Follows w.Twins Eq (constEffect e) (constEffect e) := by
  rintro f s _ code t ⟨hs, rfl⟩ hm
  obtain ⟨value, _, horFail, hm⟩ := gives_bind.mp hm
  obtain ⟨hvalue, rfl⟩ := gives_orFail.mp horFail
  obtain ⟨v, u, hlower, hm⟩ := gives_bind.mp hm
  obtain ⟨_, u₁, hrecord, hm⟩ := gives_bind.mp hm
  obtain ⟨v', _, hlower', hv, hu, rfl⟩ := (repeats_lowering w e h).value ⟨hs, rfl⟩ hlower
  have hoffset : v'.slot.offset.isNone = v.slot.offset.isNone := by rw [hv.slot.eq]; simp [slot]
  have hkind : v'.slot.kind = v.slot.kind := by rw [hv.slot.eq]; rfl
  obtain ⟨hu₁, hrecord'⟩ : w.Fits u₁ ∧
      Gives (recordConstant v'.slot value) f (w.scope u) () (w.scope u₁) := by
    unfold recordConstant at hrecord ⊢
    rw [hoffset, hkind, hv.slot.asmName]
    split at hrecord
    · next hplain =>
      rw [if_pos hplain]
      obtain ⟨x, hx, hname, hkind⟩ := exists_slot_of_constValue? hvalue hlower hplain.1
      obtain ⟨hfits, htable⟩ := hu.setContent hx (hkind ▸ hplain.2) (Hex.ofWord value)
      rw [hname] at hfits htable
      obtain rfl := gives_modify.mp hrecord
      refine ⟨hfits, gives_modify.mpr ?_⟩
      simp only [scope, session, htable]
    · next hplain =>
      rw [if_neg hplain]
      obtain ⟨-, rfl⟩ := gives_pure.mp hrecord
      exact ⟨hu, gives_pure.mpr ⟨rfl, rfl⟩⟩
  have hrest : Follows w.Twins Eq
      (do
        releaseOperand v.slot
        let post ← takePost
        return v.code.map Instr.const ++ post)
      (do
        releaseOperand v'.slot
        let post ← takePost
        return v'.code.map Instr.const ++ post) := by
    rw [hv.slot.eq]
    refine (follows_releaseOperand v.slot).bind fun _ => follows_takePost.bindSame fun _ => ?_
    exact follows_pure (by rw [hv.code])
  obtain ⟨code', t', hcode, heq, ht⟩ := hrest ⟨hu₁, rfl⟩ hm
  refine ⟨code', t', ?_, heq, ht⟩
  refine gives_bind.mpr ⟨value, _, gives_orFail.mpr ⟨hvalue, rfl⟩, ?_⟩
  exact gives_bind.mpr ⟨v', _, hlower', gives_bind.mpr ⟨(), _, hrecord', hcode⟩⟩

end Sentences

/-! ## Emitting code -/

variable (w) in
def Ahead (p p' : Progress) : Prop :=
  w.Covers p.session.table.slots p.session.catalog ∧ p' = { p with session := w.session p.session }

section Emission

open Emit

variable {e : Expr}

theorem follows_inScope (line : Line) {k : Lower Code} (c : Bool) (h : Follows w.Twins Eq k k) :
    Follows w.Ahead Eq (inScope line k c) (inScope line k c) := by
  rintro r p _ code q ⟨hp, rfl⟩ hm
  obtain ⟨t, ht, rfl⟩ := gives_inScope.mp hm
  obtain ⟨_, _, ht', rfl, htwins, rfl⟩ := follows_whole h (twins_start hp) ht
  refine ⟨code, _, gives_inScope.mpr ⟨_, ht', rfl⟩, rfl, ?_, rfl⟩
  exact htwins.covers.congr (map_outline_unmarked t.session.table.slots).symm

theorem follows_number : Follows w.Ahead Eq newJump newJump := by
  rintro r p _ id q ⟨hp, rfl⟩ hm
  obtain ⟨rfl, rfl⟩ := gives_newJump.mp hm
  exact ⟨_, _, gives_newJump.mpr ⟨rfl, rfl⟩, rfl, hp, rfl⟩

theorem follows_comment (line? : Option Line) :
    Follows w.Ahead Eq (comment line?) (comment line?) := by
  unfold comment
  refine follows_get.bind fun {p _} hp => ?_
  obtain ⟨hp, rfl⟩ := hp
  cases line? with
  | none => exact follows_pure rfl
  | some line =>
    refine .ite Iff.rfl (fun _ => ?_) fun _ => follows_pure rfl
    have hahead : w.Ahead { p with commented := some line }
        { p with session := w.session p.session, commented := some line } := ⟨hp, rfl⟩
    refine (follows_set hahead).bind fun _ => ?_
    exact follows_read.bindSame fun _ => follows_pure rfl

theorem follows_commented (line? : Option Line) {m : Emit Code} (h : Follows w.Ahead Eq m m) :
    Follows w.Ahead Eq (commented line? m) (commented line? m) :=
  (follows_comment line?).bindSame fun _ => h.bindSame fun _ => follows_pure rfl

theorem follows_expression (h : e.hidesAddresses = true) :
    Follows w.Ahead Eq (expression e) (expression e) :=
  follows_inScope e.line false (follows_effect (e.hidesAddresses_asStatement.trans h))

theorem follows_optionalExpression {e : Option Expr} (h : e.all Expr.hidesAddresses = true) :
    Follows w.Ahead Eq (optionalExpression e) (optionalExpression e) := by
  cases e with
  | none => exact follows_pure rfl
  | some e => exact follows_expression h

theorem follows_test (b : Lower.Branch) (h : e.hidesAddresses = true) :
    Follows w.Ahead Eq (condition e b) (condition e b) :=
  follows_inScope e.line false (follows_condition b h)

theorem follows_optionalCondition {e : Option Expr} (b : Lower.Branch)
    (h : e.all Expr.hidesAddresses = true) :
    Follows w.Ahead Eq (optionalCondition e b) (optionalCondition e b) := by
  cases e with
  | none => exact follows_pure rfl
  | some e => exact follows_test b h

theorem updateAsm_eq_self {asmName : String} {change : Slot → Slot}
    (h : ∀ x ∈ t.slots, x.asmName = asmName → change x = x) : t.updateAsm asmName change = t := by
  have hgo {slots : List Slot} (h : ∀ x ∈ slots, x.asmName = asmName → change x = x) :
      Table.updateAsm.go asmName change slots = slots := by
    induction slots with
    | nil => rfl
    | cons x rest ih =>
      rw [Table.updateAsm.go]
      split
      · next hname => rw [h x (by simp) hname]
      · rw [ih fun y hy => h y (by simp [hy])]
  exact congrArg (Table.mk · t.next) (hgo h)

theorem mem_splice (h : x ∈ w.splice n slots) : x ∈ w.added ∨ ∃ y ∈ slots, x = w.slot y := by
  fun_induction splice w n slots with
  | case1 n y rest ih =>
    rcases List.mem_cons.mp h with rfl | h
    · exact .inr ⟨y, by simp, rfl⟩
    · rcases ih h with h | ⟨z, hz, rfl⟩
      · exact .inl h
      · exact .inr ⟨z, by simp [hz], rfl⟩
  | case2 n rest =>
    rcases List.mem_append.mp h with h | h
    · exact .inl h
    · obtain ⟨y, hy, rfl⟩ := List.mem_map.mp h
      exact .inr ⟨y, hy, rfl⟩

theorem markDeclared_table (h : w.Covers t.slots catalog) (asmName : String) :
    w.Covers (t.markDeclared asmName).slots catalog ∧
      (w.table t).markDeclared asmName = w.table (t.markDeclared asmName) := by
  refine ⟨h.congr (Table.map_updateAsm _ ({ · with isDeclared := true }) _ _ fun _ _ _ => rfl), ?_⟩
  by_cases hname : asmName ∈ w.names
  · have hnarrow : t.markDeclared asmName = t :=
      updateAsm_eq_self fun x hx hxname => absurd hname (hxname ▸ h.names x hx)
    rw [hnarrow]
    refine updateAsm_eq_self fun x hx hxname => ?_
    rcases mem_splice hx with hadded | ⟨y, hy, rfl⟩
    · obtain ⟨i, -, -, rfl⟩ := exists_of_mem_added hadded
      rfl
    · exact absurd hname (hxname ▸ h.names y hy)
  · exact updateAsm_table hname fun _ _ _ => rfl

theorem follows_declaration (tokens : List Token) :
    Follows w.Ahead Eq (declaration tokens) (declaration tokens) := by
  have hnames (names : List String) {t : Table} {catalog : Catalog} (h : w.Covers t.slots catalog) :
      w.Covers (names.foldl Table.markDeclared t).slots catalog ∧
        names.foldl Table.markDeclared (w.table t) = w.table (names.foldl Table.markDeclared t) := by
    induction names generalizing t with
    | nil => exact ⟨h, rfl⟩
    | cons name names ih =>
      obtain ⟨hcovers, htable⟩ := markDeclared_table h name
      rw [List.foldl_cons, List.foldl_cons, htable]
      exact ih hcovers
  unfold declaration functionName?
  refine (follows_read.bindSame (Q := Eq) fun _ => follows_pure rfl).bindSame fun _ => ?_
  refine follows_modify fun {p _} hp => ?_
  obtain ⟨hp, rfl⟩ := hp
  obtain ⟨hcovers, htable⟩ := hnames _ hp
  exact ⟨hcovers, by simp only [session, htable]⟩

theorem follows_returnStatement {value : Option Expr} (h : value.all Expr.hidesAddresses = true) :
    Follows w.Ahead Eq (returnStatement value line) (returnStatement value line) := by
  unfold returnStatement
  refine follows_read.bindSame fun r => ?_
  cases r.function with
  | none => cases value <;> exact follows_throw
  | some f =>
    cases value with
    | none => exact .ite Iff.rfl (fun _ => follows_pure rfl) fun _ => follows_throw
    | some e =>
      refine .ite Iff.rfl (fun _ => follows_throw) fun _ => ?_
      exact follows_inScope line false (follows_returnValue h)

theorem follows_jumpInLoop {loop : Option String} {label : LoopLabels → String} {cause : Cause} :
    Follows w.Ahead Eq (jumpInLoop loop label line cause) (jumpInLoop loop label line cause) := by
  cases loop with
  | none => exact follows_throw
  | some id => exact follows_pure rfl

theorem follows_goto {target : String} : Follows w.Ahead Eq (goto target line) (goto target line) := by
  unfold goto
  refine follows_read.bindSame fun r => ?_
  exact .ite Iff.rfl (fun _ => follows_pure rfl) fun _ => follows_throw

theorem follows_ifElse {yes : Emit Code} {otherwise : Option (Emit Code)}
    (h : e.hidesAddresses = true) (hyes : Follows w.Ahead Eq yes yes)
    (hno : ∀ no ∈ otherwise, Follows w.Ahead Eq no no) :
    Follows w.Ahead Eq (ifElse e yes otherwise) (ifElse e yes otherwise) := by
  unfold ifElse
  refine follows_number.bindSame fun id => ?_
  refine (follows_test _ h).bindSame fun _ => hyes.bindSame fun _ => ?_
  cases otherwise with
  | none => exact (follows_pure rfl).bindSame fun _ => follows_pure rfl
  | some no => exact (hno no rfl).bindSame fun _ => follows_pure rfl

theorem follows_whileLoop (h : e.hidesAddresses = true)
    (hbody : ∀ id, Follows w.Ahead Eq (body id) (body id)) :
    Follows w.Ahead Eq (whileLoop e body) (whileLoop e body) := by
  unfold whileLoop
  refine follows_number.bindSame fun id => ?_
  exact (follows_test _ h).bindSame fun _ => (hbody id).bindSame fun _ => follows_pure rfl

theorem follows_doLoop (h : e.hidesAddresses = true)
    (hbody : ∀ id, Follows w.Ahead Eq (body id) (body id)) :
    Follows w.Ahead Eq (doLoop e body) (doLoop e body) := by
  unfold doLoop
  refine follows_number.bindSame fun id => ?_
  refine (hbody id).bindSame fun _ => (follows_comment _).bindSame fun _ => ?_
  exact (follows_test _ h).bindSame fun _ => follows_pure rfl

theorem follows_forLoop {init test step : Option Expr} (hinit : init.all Expr.hidesAddresses = true)
    (htest : test.all Expr.hidesAddresses = true) (hstep : step.all Expr.hidesAddresses = true)
    (hbody : ∀ id, Follows w.Ahead Eq (body id) (body id)) :
    Follows w.Ahead Eq (forLoop init test step body) (forLoop init test step body) := by
  unfold forLoop
  refine follows_number.bindSame fun id => ?_
  refine (follows_optionalExpression hinit).bindSame fun _ => ?_
  refine (follows_optionalCondition _ htest).bindSame fun _ => (hbody id).bindSame fun _ => ?_
  exact (follows_optionalExpression hstep).bindSame fun _ => follows_pure rfl

end Emission

mutual

theorem follows_emit (w : Widening) (loop : Option String) : (stmt : Stmt) →
    stmt.hidesAddresses = true → Follows w.Ahead Eq (stmt.emit loop) (stmt.emit loop)
  | .expression e, h => follows_commented (some e.line) (follows_expression h)
  | .const e, h => follows_commented (some e.line) (follows_inScope e.line true (follows_constEffect h))
  | .declaration tokens, _ => (follows_declaration tokens).bind fun _ => follows_pure rfl
  | .structDefinition _ _ _, _ => follows_pure rfl
  | .ifElse e thenBranch elseBranch line, h => by
    simp only [Stmt.hidesAddresses, Bool.and_eq_true] at h
    exact follows_commented (some line) (follows_ifElse h.1.1 (follows_emitBlock w loop thenBranch h.1.2)
      (follows_emitElse w loop elseBranch h.2))
  | .whileLoop e body line, h => by
    simp only [Stmt.hidesAddresses, Bool.and_eq_true] at h
    exact follows_commented (some line)
      (follows_whileLoop h.1 fun id => follows_emitBlock w (some id) body h.2)
  | .doLoop body e line, h => by
    simp only [Stmt.hidesAddresses, Bool.and_eq_true] at h
    exact follows_commented (some line)
      (follows_doLoop h.1 fun id => follows_emitBlock w (some id) body h.2)
  | .forLoop init e step body line, h => by
    simp only [Stmt.hidesAddresses, Bool.and_eq_true] at h
    exact follows_commented (some line) (follows_forLoop h.1.1.1 h.1.1.2 h.1.2 fun id =>
      follows_emitBlock w (some id) body h.2)
  | .breakLoop line, _ | .continueLoop line, _ => follows_commented (some line) follows_jumpInLoop
  | .goto target line, _ => follows_commented (some line) follows_goto
  | .label name line, _ => follows_commented (some line) (follows_pure rfl)
  | .exit line, _ | .halt line, _ => follows_commented (some line) (follows_pure rfl)
  | .ret value line, h => follows_commented (some line) (follows_returnStatement h)
  | .block body, h => follows_emitBlock w loop body h

theorem follows_emitBlock (w : Widening) (loop : Option String) : (body : List Stmt) →
    Stmt.blockHidesAddresses body = true →
      Follows w.Ahead Eq (Stmt.emitBlock loop body) (Stmt.emitBlock loop body)
  | [], _ => follows_pure rfl
  | stmt :: rest, h => by
    simp only [Stmt.blockHidesAddresses, Bool.and_eq_true] at h
    exact (follows_emit w loop stmt h.1).bindSame fun _ =>
      (follows_emitBlock w loop rest h.2).bindSame fun _ => follows_pure rfl

theorem follows_emitElse (w : Widening) (loop : Option String) : (body : Option (List Stmt)) →
    Stmt.elseHidesAddresses body = true →
      ∀ other ∈ Stmt.emitElse loop body, Follows w.Ahead Eq other other
  | none, _ => by simp [Stmt.emitElse]
  | some body, h => by
    have hbody := follows_emitBlock w loop body h
    simpa [Stmt.emitElse] using hbody

end

end Widening

end Flatword
