import Flatword.Proofs.Balance
import Flatword.Proofs.Context
import Flatword.Proofs.Table

/-!
# Registers in use at the end of a statement

A statement is refused when a register is still in use at its end. Lowering is balanced, so such a
register must have been left behind by a value that was not released.
-/

namespace Flatword

/-! ## What statements leave as it is -/

/-- A slot without its marks and its value. -/
def Slot.bare (s : Slot) : Slot :=
  { s with isSet := false, isDeclared := false, content := none }

/-- A table without the marks and values of its slots. -/
def Table.bare (t : Table) : Table :=
  { t with slots := t.slots.map Slot.bare }

theorem Table.sound_bare {t : Table} : t.bare.Sound ↔ t.Sound := by
  have hnames : t.bare.slots.map Slot.asmName = t.slots.map Slot.asmName := by
    simp [Table.bare, Slot.bare]
  have haddresses : (t.bare.slots.filter (·.kind ≠ .struct)).map Slot.address =
      (t.slots.filter (·.kind ≠ .struct)).map Slot.address := by
    simp only [Table.bare, List.filter_map, List.map_map]
    rfl
  constructor
  · intro h
    refine ⟨fun s hs => ?_, hnames ▸ h.names, fun s hs => ?_, haddresses ▸ h.distinct⟩
    · have hfits := h.fits s.bare (List.mem_map_of_mem hs)
      exact ⟨hfits.constant, hfits.void, hfits.offset, hfits.register⟩
    · exact h.placed s.bare (List.mem_map_of_mem hs)
  · intro h
    refine ⟨fun s hs => ?_, hnames ▸ h.names, fun s hs => ?_, haddresses ▸ h.distinct⟩
    · obtain ⟨x, hx, rfl⟩ := List.mem_map.mp hs
      have hfits := h.fits x hx
      exact ⟨hfits.constant, hfits.void, hfits.offset, hfits.register⟩
    · obtain ⟨x, hx, rfl⟩ := List.mem_map.mp hs
      exact h.placed x hx

theorem Table.bare_updateAsm (change : Slot → Slot) (h : ∀ s, (change s).bare = s.bare) (t : Table)
    (asmName : String) : (t.updateAsm asmName change).bare = t.bare := by
  rw [Table.bare, map_updateAsm Slot.bare change t asmName fun s _ _ => h s]
  rfl

@[simp]
theorem Table.bare_markSet (t : Table) (asmName : String) : (t.markSet asmName).bare = t.bare :=
  bare_updateAsm ({ · with isSet := true }) (fun _ => rfl) t asmName

@[simp]
theorem Table.bare_markDeclared (t : Table) (asmName : String) :
    (t.markDeclared asmName).bare = t.bare :=
  bare_updateAsm ({ · with isDeclared := true }) (fun _ => rfl) t asmName

@[simp]
theorem Table.bare_setContent (t : Table) (asmName hex : String) :
    (t.setContent asmName hex).bare = t.bare :=
  bare_updateAsm ({ · with content := some hex, isSet := true }) (fun _ => rfl) t asmName

theorem Scope.Move.bare {s t : Scope} (h : s.Move t) :
    t.session.table.bare = s.session.table.bare := by
  cases h with
  | mark asmName => exact Table.bare_markSet s.session.table asmName
  | _ => rfl

theorem Scope.Regular.congr {s t : Scope} (hs : s.Regular) (hpool : t.pool = s.pool)
    (hreuse : t.reuse = s.reuse) (hbare : t.session.table.bare = s.session.table.bare) :
    t.Regular := by
  have hregisters : t.ground.registers = s.ground.registers := congrArg Pool.slots hpool
  refine ⟨⟨hregisters ▸ hs.ground.plain, hregisters ▸ hs.ground.placed,
    hregisters ▸ hs.ground.distinct, fun slot hslot => ?_⟩, hreuse ▸ hs.target⟩
  obtain ⟨x, hx, rfl⟩ := List.mem_map.mp hslot
  have hx : x.bare ∈ s.session.table.slots.map Slot.bare := by
    have h := congrArg Table.slots hbare
    simp only [Table.bare] at h
    exact h ▸ List.mem_map_of_mem hx
  obtain ⟨y, hy, hxy⟩ := List.mem_map.mp hx
  have hkind := congrArg Slot.kind hxy.symm
  have haddress := congrArg Slot.address hxy.symm
  have hsuits : s.ground.Suits x.unmarked :=
    (hs.suits (Scope.knows_of_mem hy)).congr hkind haddress
  exact ⟨by rw [hregisters]; exact hsuits.array, hsuits.constant⟩

/-! ## Failures because of registers in use -/

section Leaks

variable {ρ σ α β : Type} {m : ReaderT ρ (ExceptT Failure (StateM σ)) α} {r : ρ} {s : σ}

/-- A step fails because a statement has not given all registers back. -/
def Leaks (m : ReaderT ρ (ExceptT Failure (StateM σ)) α) (r : ρ) (s : σ) : Prop :=
  ∃ e, (outcome m r s).1 = .error e ∧ e.cause.isLeak = true

theorem leaks_bind {k : α → ReaderT ρ (ExceptT Failure (StateM σ)) β} :
    Leaks (m >>= k) r s ↔ Leaks m r s ∨ ∃ a t, Gives m r s a t ∧ Leaks (k a) r t := by
  unfold Leaks Gives
  rw [outcome_bind]
  rcases outcome m r s with ⟨_ | a, t⟩ <;> simp

end Leaks

namespace Lower

variable {k : Lower Code} {α : Type} {m : Lower α} {f : Frame} {s t : Scope}

theorem Orderly.not_leaks [Orderly m] : ¬ Leaks m f s := by
  rintro ⟨e, he, hleak⟩
  simp [Orderly.cause f s e he] at hleak

theorem leaks_finish : Leaks finish f s ↔ s.pool.inUse ≠ [] := by
  simp only [finish, leaks_bind]
  constructor
  · rintro (⟨e, he, -⟩ | ⟨_, _, hget, h⟩)
    · simp at he
    · obtain ⟨rfl, rfl⟩ := gives_get.mp hget
      split at h
      · obtain ⟨e, he, -⟩ := h
        simp at he
      · next hne => simpa using hne
  · intro h
    refine .inr ⟨s, s, gives_get.mpr ⟨rfl, rfl⟩, ?_⟩
    split
    · next heq => exact absurd heq h
    · exact ⟨_, rfl, rfl⟩

theorem outcome_whole_snd : (outcome (whole m) f s).2 = (outcome m f s).2 := by
  rw [whole, outcome_bind]
  rcases outcome m f s with ⟨_ | a, t⟩
  · rfl
  · have hfinish : (outcome finish f t).2 = t := by
      simp only [finish, outcome_bind, outcome_get]
      split <;> rfl
    simp only [outcome_bind]
    rcases h : outcome finish f t with ⟨_ | x, u⟩ <;> (rw [h] at hfinish; exact hfinish)

theorem leaks_whole (hm : ¬ Leaks m f s) :
    Leaks (whole m) f s ↔ ∃ a t, Gives m f s a t ∧ t.pool.inUse ≠ [] := by
  simp only [whole, leaks_bind, hm, false_or, leaks_finish]
  refine exists_congr fun a => exists_congr fun t => and_congr_right fun _ => or_iff_left ?_
  rintro ⟨_, _, -, e, he, -⟩
  simp at he

/-! ## Sentences -/

/-- What is lowered in a scope of its own. -/
inductive Sentence : Lower Code → Prop
  | effect (e : Expr) : Sentence (effect e)
  | constEffect (e : Expr) : Sentence (constEffect e)
  | condition (e : Expr) (b : Branch) : Sentence (condition e b)
  | returnValue (e : Expr) : Sentence (returnValue e)

instance (e : Expr) (slot : Slot) : Orderly (checkUsed e slot) := by
  unfold checkUsed
  infer_instance

/-- A step that leaves the table as it is, but for marks and values, and the registers of the pool,
and that does not leak. -/
class Steady (m : Lower α) : Prop where
  marks : ∀ f (s : Scope), s.session.Marks (outcome m f s).2.session
  bare : ∀ f s, (outcome m f s).2.session.table.bare = s.session.table.bare
  slots : ∀ f s, (outcome m f s).2.pool.slots = s.pool.slots
  leaks : ∀ f s, ¬ Leaks m f s

theorem bare_of_gives [Steady m] {a : α} (h : Gives m f s a t) :
    t.session.table.bare = s.session.table.bare := by
  have hm := Steady.bare (m := m) f s
  rwa [show outcome m f s = _ from h] at hm

instance [Orderly m] : Steady m where
  marks f s := (Orderly.proceeds f s).notes
  bare f s := (Orderly.leads (m := m) f s).invariant Scope.Move.bare
  slots f s := congrArg Ground.registers (Orderly.leads (m := m) f s).ground
  leaks _ _ := Orderly.not_leaks

instance {β : Type} (k : α → Lower β) [Steady m] [∀ a, Steady (k a)] : Steady (m >>= k) where
  marks f s := by
    have hm := Steady.marks (m := m) f s
    rw [outcome_bind]
    rcases h : outcome m f s with ⟨_ | a, t⟩ <;> rw [h] at hm
    · exact hm
    · exact Relation.ReflTransGen.trans hm (Steady.marks f t)
  bare f s := by
    have hm := Steady.bare (m := m) f s
    rw [outcome_bind]
    rcases h : outcome m f s with ⟨_ | a, t⟩ <;> rw [h] at hm
    · exact hm
    · exact (Steady.bare f t).trans hm
  slots f s := by
    have hm := Steady.slots (m := m) f s
    rw [outcome_bind]
    rcases h : outcome m f s with ⟨_ | a, t⟩ <;> rw [h] at hm
    · exact hm
    · exact (Steady.slots f t).trans hm
  leaks f s := by
    rw [leaks_bind]
    rintro (h | ⟨a, t, -, h⟩)
    · exact Steady.leaks f s h
    · exact Steady.leaks f t h

theorem steady_of_ok (h : ∀ f s, ∃ a t, Gives m f s a t ∧ t.session = s.session ∧ t.pool = s.pool) :
    Steady m where
  marks f s := by
    obtain ⟨a, t, hm, hsession, -⟩ := h f s
    rw [show outcome m f s = _ from hm, hsession]
    exact .refl
  bare f s := by
    obtain ⟨a, t, hm, hsession, -⟩ := h f s
    rw [show outcome m f s = _ from hm, hsession]
  slots f s := by
    obtain ⟨a, t, hm, -, hpool⟩ := h f s
    rw [show outcome m f s = _ from hm, hpool]
  leaks f s := by
    obtain ⟨a, t, hm, -⟩ := h f s
    rintro ⟨e, he, -⟩
    rw [show outcome m f s = _ from hm] at he
    simp at he

instance : Steady (get : Lower Scope) :=
  steady_of_ok fun _ s => ⟨s, s, rfl, rfl, rfl⟩

instance : Steady allowReuse :=
  steady_of_ok fun _ s => ⟨⟨⟩, { s with reuse := s.reuse.allow }, rfl, rfl, rfl⟩

instance : Steady takePost :=
  steady_of_ok fun _ s => ⟨s.post, { s with post := [] }, rfl, rfl, rfl⟩

instance (target : Slot) (value : Word) : Steady (recordConstant target value) := by
  unfold recordConstant
  split
  · refine ⟨fun f s => .single (.record ..), fun f s => Table.bare_setContent .., fun _ _ => rfl, ?_⟩
    rintro f s ⟨e, he, -⟩
    exact nomatch he
  · infer_instance

theorem Sentence.steady (h : Sentence k) : Steady k := by
  cases h with
  | effect e => unfold Lower.effect; infer_instance
  | constEffect e => unfold Lower.constEffect; infer_instance
  | condition e b => unfold Lower.condition; infer_instance
  | returnValue e => unfold Lower.returnValue; infer_instance

theorem recordConstant_same {target : Slot} {value : Word} {x : Unit}
    (h : Gives (recordConstant target value) f s x t) : t.pool = s.pool ∧ t.reuse = s.reuse := by
  unfold recordConstant at h
  split at h
  · rw [← gives_modifySession.mp h]
    exact ⟨rfl, rfl⟩
  · rw [(gives_pure.mp h).2]
    exact ⟨rfl, rfl⟩

end Lower

/-! ## Statements -/

/-- One change that emitting code makes to a session. -/
inductive Session.Move : Session → Session → Prop
  | number (s : Session) : Move s s.newJump.2
  | declared (s : Session) (asmName : String) :
      Move s { s with table := s.table.markDeclared asmName }
  | sentence (s : Session) {k} (hk : Lower.Sentence k) (f : Frame) :
      Move s (outcome k f (.start s)).2.session

/-- Any number of changes. -/
def Session.Leads : Session → Session → Prop :=
  Relation.ReflTransGen Session.Move

namespace Session.Leads

theorem refl (s : Session) : s.Leads s :=
  Relation.ReflTransGen.refl

theorem trans {s t u : Session} (h : s.Leads t) (h' : t.Leads u) : s.Leads u :=
  Relation.ReflTransGen.trans h h'

theorem move {s t : Session} (h : s.Move t) : s.Leads t :=
  Relation.ReflTransGen.single h

theorem preserves {P : Session → Prop} (hP : ∀ {s t : Session}, s.Move t → P s → P t)
    {s t : Session} (h : s.Leads t) (hs : P s) : P t := by
  induction h with
  | refl => exact hs
  | tail _ hmove ih => exact hP hmove ih

end Session.Leads

theorem Session.Move.bare {s t : Session} (h : s.Move t) : t.table.bare = s.table.bare := by
  cases h with
  | number => rfl
  | declared asmName => exact Table.bare_markDeclared s.table asmName
  | sentence hk f =>
    have := hk.steady
    exact Lower.Steady.bare f (.start s)

theorem Session.Leads.bare {s t : Session} (h : s.Leads t) : t.table.bare = s.table.bare :=
  h.preserves (P := fun u => u.table.bare = s.table.bare) (fun hmove ih => hmove.bare.trans ih) rfl

theorem Session.Leads.marks {s t : Session} (h : s.Leads t) : s.Marks t := by
  refine h.preserves (P := s.Marks) (fun {u v} hmove ih => ?_) .refl
  cases hmove with
  | number => exact ih.tail (.aside rfl rfl)
  | declared asmName => exact ih.tail (.declared u asmName)
  | sentence hk f =>
    have := hk.steady
    exact Relation.ReflTransGen.trans ih (Lower.Steady.marks f (.start u))

/-- An expression or condition of a statement, as it is lowered. -/
inductive Clause where
  | effect (e : Expr)
  | const (e : Expr)
  | condition (e : Expr) (b : Lower.Branch)
  | value (e : Expr)

namespace Clause

/-- The step that lowers a clause. -/
def step : Clause → Lower Code
  | effect e => Lower.effect e
  | const e => Lower.constEffect e
  | condition e b => Lower.condition e b
  | value e => Lower.returnValue e

def isConst : Clause → Bool
  | const _ => true
  | _ => false

theorem sentence (clause : Clause) : Lower.Sentence clause.step := by
  cases clause with
  | effect e => exact .effect e
  | const e => exact .constEffect e
  | condition e b => exact .condition e b
  | value e => exact .returnValue e

def frame (clause : Clause) (function : Option String) (line : Line) : Frame :=
  { function, line, constSentence := clause.isConst }

end Clause

namespace Stmt

mutual

def Uses : Stmt → Clause → Prop
  | expression e, clause => clause = .effect e.asStatement
  | const e, clause => clause = .const e
  | ifElse e thenBranch elseBranch _, clause =>
    (∃ b, clause = .condition e b) ∨ BlockUses thenBranch clause ∨ ElseUses elseBranch clause
  | whileLoop e body _, clause | doLoop body e _, clause =>
    (∃ b, clause = .condition e b) ∨ BlockUses body clause
  | forLoop init e step body _, clause =>
    (∃ x ∈ init, clause = .effect x.asStatement) ∨ (∃ x ∈ e, ∃ b, clause = .condition x b) ∨
      BlockUses body clause ∨ ∃ x ∈ step, clause = .effect x.asStatement
  | ret value _, clause => ∃ x ∈ value, clause = .value x
  | block body, clause => BlockUses body clause
  | _, _ => False

def BlockUses : List Stmt → Clause → Prop
  | [], _ => False
  | stmt :: rest, clause => stmt.Uses clause ∨ BlockUses rest clause

def ElseUses : Option (List Stmt) → Clause → Prop
  | none, _ => False
  | some body, clause => BlockUses body clause

end

end Stmt

namespace Emit

variable {c : Bool} {line : Line} {α β : Type} {r : Routine} {p q : Progress}

def frame (r : Routine) (line : Line) (constSentence : Bool) : Frame :=
  { function := r.function.map Function.name, line, constSentence }

theorem outcome_inScope (line : Line) (k : Lower α) (c : Bool) :
    outcome (inScope line k c) r p =
      ((outcome (Lower.whole k) (frame r line c) (.start p.session)).1,
        { p with session := (outcome (Lower.whole k) (frame r line c) (.start p.session)).2.session }) := by
  have hrun : (((Lower.whole k).run ⟨r.function.map Function.name, line, false, c⟩).run).run
      (.start p.session) = outcome (Lower.whole k) (frame r line c) (.start p.session) := rfl
  simp only [inScope, functionName?, outcome_bind, outcome_get, outcome_read, outcome_pure, hrun]
  rcases outcome (Lower.whole k) (frame r line c) (.start p.session) with ⟨_ | a, t⟩ <;> rfl

theorem leaks_inScope {k : Lower α} :
    Leaks (inScope line k c) r p ↔ Leaks (Lower.whole k) (frame r line c) (.start p.session) := by
  simp only [Leaks, outcome_inScope]

/-- A step that changes the session as emitting does, and that leaks only in a clause of a kind. -/
class Traced (K : Clause → Prop) (m : Emit α) : Prop where
  leads : ∀ r (p : Progress), p.session.Leads (outcome m r p).2.session
  leaks : ∀ r (p : Progress), Leaks m r p → ∃ clause line t, K clause ∧ p.session.Leads t ∧
    Leaks (Lower.whole clause.step) (clause.frame (r.function.map Function.name) line) (.start t)

variable {K : Clause → Prop}

theorem traced_of_cause {m : Emit α} (hleads : ∀ r (p : Progress), p.session.Leads (outcome m r p).2.session)
    (h : ∀ r p e, (outcome m r p).1 = .error e → e.cause.isLeak = false) : Traced K m where
  leads := hleads
  leaks r p := by
    rintro ⟨e, he, hleak⟩
    simp [h r p e he] at hleak

instance (a : α) : Traced K (pure a : Emit α) :=
  traced_of_cause (fun _ p => .refl p.session) fun _ _ _ h => nomatch h

instance : Traced K (get : Emit Progress) :=
  traced_of_cause (fun _ p => .refl p.session) fun _ _ _ h => nomatch h

instance : Traced K (read : Emit Routine) :=
  traced_of_cause (fun _ p => .refl p.session) fun _ _ _ h => nomatch h

instance : Traced K newJump :=
  traced_of_cause (fun _ p => .move (.number p.session)) fun _ _ _ h => nomatch h

instance (line : Line) (cause : Cause) [h : SameBool cause.isLeak false] :
    Traced K (fail line cause : Emit α) := by
  refine traced_of_cause (fun _ p => .refl p.session) fun _ _ e he => ?_
  obtain rfl : _ = e := Except.error.inj he
  exact h.eq

instance traced_bind (m : Emit α) (k : α → Emit β) [Traced K m] [∀ a, Traced K (k a)] :
    Traced K (m >>= k) where
  leads r p := by
    have hm := Traced.leads K (m := m) r p
    rw [outcome_bind]
    rcases h : outcome m r p with ⟨_ | a, t⟩ <;> rw [h] at hm
    · exact hm
    · exact hm.trans (Traced.leads K r t)
  leaks r p := by
    rw [leaks_bind]
    rintro (h | ⟨a, q, hm, h⟩)
    · exact Traced.leaks r p h
    · obtain ⟨clause, line, t, hK, hleads, hleaks⟩ := Traced.leaks (K := K) r q h
      have hm' := Traced.leads K (m := m) r p
      rw [show outcome m r p = _ from hm] at hm'
      exact ⟨clause, line, t, hK, hm'.trans hleads, hleaks⟩

instance (c : Prop) [Decidable c] (m m' : Emit α) [Traced K m] [Traced K m'] :
    Traced K (if c then m else m') := by
  split <;> infer_instance

theorem traced_clause {clause : Clause} (hK : K clause) (line : Line) :
    Traced K (inScope line clause.step clause.isConst) where
  leads r p := by
    rw [outcome_inScope, Lower.outcome_whole_snd]
    exact .move (.sentence p.session clause.sentence (frame r line clause.isConst))
  leaks _ p h := ⟨clause, line, p.session, hK, .refl p.session, leaks_inScope.mp h⟩

instance (line? : Option Line) : Traced K (comment line?) := by
  cases line? with
  | none => unfold comment; infer_instance
  | some line =>
    refine traced_of_cause (fun r p => ?_) fun r p e he => ?_
    · simp only [comment, outcome_bind, outcome_get]
      split <;> exact .refl p.session
    · simp only [comment, outcome_bind, outcome_get] at he
      split at he <;> exact nomatch he

instance (line? : Option Line) (m : Emit Code) [Traced K m] : Traced K (commented line? m) := by
  unfold commented
  infer_instance

theorem leads_foldl_markDeclared (names : List String) (s : Session) :
    s.Leads { s with table := names.foldl Table.markDeclared s.table } := by
  induction names generalizing s with
  | nil => exact .refl s
  | cons name names ih => exact (Session.Leads.move (.declared s name)).trans (ih _)

instance (tokens : List Token) : Traced K (declaration tokens) :=
  traced_of_cause (fun _ p => leads_foldl_markDeclared _ p.session) fun _ _ _ h => nomatch h

instance (loop : Option String) (label : LoopLabels → String) (line : Line) (cause : Cause)
    [SameBool cause.isLeak false] : Traced K (jumpInLoop loop label line cause) := by
  unfold jumpInLoop
  split <;> infer_instance

instance (target : String) (line : Line) : Traced K (goto target line) := by
  unfold goto
  infer_instance

section Parts

variable {e : Expr} {init test step value : Option Expr}

theorem traced_optionalExpression (hK : ∀ e ∈ init, K (.effect e.asStatement)) :
    Traced K (optionalExpression init) := by
  cases init with
  | none => unfold optionalExpression; infer_instance
  | some e => exact traced_clause (hK e rfl) e.line

theorem traced_condition (hK : ∀ b, K (.condition e b)) (b : Lower.Branch) : Traced K (condition e b) :=
  traced_clause (hK b) e.line

theorem traced_optionalCondition (hK : ∀ e ∈ test, ∀ b, K (.condition e b)) (b : Lower.Branch) :
    Traced K (optionalCondition test b) := by
  cases test with
  | none => unfold optionalCondition; infer_instance
  | some e => exact traced_condition (hK e rfl) b

theorem traced_returnStatement (hK : ∀ e ∈ value, K (.value e)) (line : Line) :
    Traced K (returnStatement value line) := by
  unfold returnStatement
  refine @traced_bind _ _ _ _ _ _ fun r => ?_
  split
  · infer_instance
  · infer_instance
  · next e hK =>
    have : Traced K (inScope line (Lower.returnValue e)) := traced_clause (hK e rfl) line
    infer_instance

theorem traced_ifElse (yes : Emit Code) {otherwise : Option (Emit Code)} [Traced K yes]
    (hK : ∀ b, K (.condition e b)) (hno : ∀ no ∈ otherwise, Traced K no) :
    Traced K (ifElse e yes otherwise) := by
  have := traced_condition hK
  cases otherwise with
  | none => unfold ifElse; infer_instance
  | some no =>
    have := hno no rfl
    unfold ifElse
    infer_instance

variable (body : String → Emit Code) [∀ id, Traced K (body id)]

theorem traced_whileLoop (hK : ∀ b, K (.condition e b)) : Traced K (whileLoop e body) := by
  have := traced_condition hK
  unfold whileLoop
  infer_instance

theorem traced_doLoop (hK : ∀ b, K (.condition e b)) : Traced K (doLoop e body) := by
  have := traced_condition hK
  unfold doLoop
  infer_instance

theorem traced_forLoop (hinit : ∀ x ∈ init, K (.effect x.asStatement))
    (htest : ∀ x ∈ test, ∀ b, K (.condition x b)) (hstep : ∀ x ∈ step, K (.effect x.asStatement)) :
    Traced K (forLoop init test step body) := by
  have := traced_optionalExpression hinit
  have := traced_optionalCondition htest
  have := traced_optionalExpression hstep
  unfold forLoop
  infer_instance

end Parts

end Emit

namespace Stmt

open Emit

variable {K : Clause → Prop}

mutual

theorem traced_emit (loop : Option String) :
    (stmt : Stmt) → (∀ clause, stmt.Uses clause → K clause) → Traced K (stmt.emit loop)
  | expression e, hK => by
    have : Traced K (Emit.expression e) := traced_clause (hK _ rfl) e.line
    unfold emit
    infer_instance
  | const e, hK => by
    have : Traced K (constSentence e) := traced_clause (hK (.const e) rfl) e.line
    unfold emit
    infer_instance
  | declaration _, _ | structDefinition _ _ _, _ | breakLoop _, _ | continueLoop _, _ | goto _ _, _
  | label _ _, _ | exit _, _ | halt _, _ => by
    unfold emit
    infer_instance
  | ifElse e thenBranch elseBranch line, hK => by
    have := traced_emitBlock loop thenBranch fun clause h => hK clause (.inr (.inl h))
    have := traced_ifElse (emitBlock loop thenBranch) (fun b => hK _ (.inl ⟨b, rfl⟩))
      (traced_emitElse loop elseBranch fun clause h => hK clause (.inr (.inr h)))
    unfold emit
    infer_instance
  | whileLoop e body line, hK => by
    have (id : String) := traced_emitBlock (some id) body fun clause h => hK clause (.inr h)
    have := traced_whileLoop (fun id => emitBlock (some id) body) fun b => hK _ (.inl ⟨b, rfl⟩)
    unfold emit
    infer_instance
  | doLoop body e line, hK => by
    have (id : String) := traced_emitBlock (some id) body fun clause h => hK clause (.inr h)
    have := traced_doLoop (fun id => emitBlock (some id) body) fun b => hK _ (.inl ⟨b, rfl⟩)
    unfold emit
    infer_instance
  | forLoop init e step body line, hK => by
    have (id : String) := traced_emitBlock (some id) body fun clause h => hK clause (.inr (.inr (.inl h)))
    have := traced_forLoop (fun id => emitBlock (some id) body)
      (fun x hx => hK _ (.inl ⟨x, hx, rfl⟩)) (fun x hx b => hK _ (.inr (.inl ⟨x, hx, b, rfl⟩)))
      fun x hx => hK _ (.inr (.inr (.inr ⟨x, hx, rfl⟩)))
    unfold emit
    infer_instance
  | ret value line, hK => by
    have := traced_returnStatement (fun x hx => hK _ ⟨x, hx, rfl⟩) line
    unfold emit
    infer_instance
  | block body, hK => by
    have := traced_emitBlock loop body hK
    unfold emit
    infer_instance

theorem traced_emitBlock (loop : Option String) : (body : List Stmt) →
    (∀ clause, BlockUses body clause → K clause) → Traced K (emitBlock loop body)
  | [], _ => by unfold emitBlock; infer_instance
  | stmt :: rest, hK => by
    have := stmt.traced_emit loop fun clause h => hK clause (.inl h)
    have := traced_emitBlock loop rest fun clause h => hK clause (.inr h)
    unfold emitBlock
    infer_instance

theorem traced_emitElse (loop : Option String) : (body : Option (List Stmt)) →
    (∀ clause, ElseUses body clause → K clause) → ∀ other ∈ emitElse loop body, Traced K other
  | none, _ => by simp [emitElse]
  | some body, hK => by
    have hbody := traced_emitBlock loop body hK
    simpa [emitElse] using hbody

end

end Stmt

/-! ## Programs -/

/-- A session met while a program is compiled: after its declarations, and after any statement. -/
inductive Session.Compiling (program : Program) : Session → Prop
  | built {options s t} (hs : Session.start options = .ok s)
      (ht : result (Session.build program) s = (.ok (), t)) : Compiling program t
  | emitted {s} (hs : Compiling program s) (stmt : Stmt) (loop : Option String)
      (r : Routine) (commented : Option Line) :
      Compiling program (outcome (stmt.emit loop) r ⟨s, commented⟩).2.session

theorem Session.Compiling.sound {program : Program} {s : Session} (h : s.Compiling program)
    (hprogram : program.AvoidsRegisters) : s.table.Sound := by
  induction h with
  | built hs ht =>
    have hbuilt := (Session.keeps_build hprogram _ (Session.sound_start hs)).1
    rw [ht] at hbuilt
    exact hbuilt.table
  | @emitted u _ stmt loop r commented ih =>
    have := stmt.traced_emit loop fun _ h => h
    have hleads := Emit.Traced.leads stmt.Uses (m := stmt.emit loop) r ⟨u, commented⟩
    rw [← Table.sound_bare, hleads.bare, Table.sound_bare]
    exact ih

end Flatword
