import Flatword.Proofs.Spared
import Flatword.Proofs.Structured

/-!
# Variables that stand for constants

Code may read a variable in place of a constant. The sentences of a program are followed through a whole
compilation, so that what each of them writes by name is seen against what is recorded.
-/

namespace Flatword

variable {asmName hex : String} {f : Frame} {instr : Instr} {s : Session}

/-! ## The sentences of a compilation -/

/-- A sentence as it is lowered. -/
structure Passage where
  function : Option String
  clause : Clause
  line : Line
  before : Session
  code : Code
  after : Scope
  gives : Gives (Lower.whole clause.step) (clause.frame function line) (.start before) code after

/-- The sentence stores to the variable of this name. -/
def Passage.Stores (p : Passage) (name : String) : Prop :=
  p.clause.expr.StoresTo (Scope.start p.before).ground p.function name

/-- A sentence of a program, with the function that it stands in. -/
def Program.HasClause (program : Program) (function : Option String) (clause : Clause) : Prop :=
  (function = none ∧ Stmt.BlockUses program.main clause) ∨
    ∃ f ∈ program.functions, function = some f.name ∧ Stmt.BlockUses f.body clause

/-- The session changes as sentences of the program are lowered one after the other. -/
inductive Program.Lowers (program : Program) : Session → List Passage → Session → Prop
  | nil (s : Session) : Lowers program s [] s
  | append {s t u ps qs} (h : Lowers program s ps t)
      (h' : Lowers program t qs u) : Lowers program s (ps ++ qs) u
  | number (s : Session) : Lowers program s [] s.newJump.2
  | declared (s : Session) (asmName : String) :
      Lowers program s [] { s with table := s.table.markDeclared asmName }
  | passage (p : Passage) (h : program.HasClause p.function p.clause) :
      Lowers program p.before [p] p.after.session

/-- Code is made of that of the sentences in their order, and of control instructions. -/
structure Code.MadeOf (code : Code) (ps : List Passage) : Prop where
  order : (ps.flatMap Passage.code).Sublist code
  control : ∀ instr ∈ code, instr ∈ ps.flatMap Passage.code ∨ instr.isControl = true

namespace Code.MadeOf

variable {code code' : Code} {ps qs : List Passage}

theorem of_control (h : ∀ instr ∈ code, instr.isControl = true) : code.MadeOf [] :=
  ⟨List.nil_sublist _, fun instr hinstr => .inr (h instr hinstr)⟩

theorem append (h : code.MadeOf ps) (h' : code'.MadeOf qs) :
    Code.MadeOf (code ++ code') (ps ++ qs) where
  order := by
    rw [List.flatMap_append]
    exact h.order.append h'.order
  control instr hinstr := by
    rw [List.flatMap_append, List.mem_append]
    rcases List.mem_append.mp hinstr with hinstr | hinstr
    · exact (h.control instr hinstr).imp_left .inl
    · exact (h'.control instr hinstr).imp_left .inr

end Code.MadeOf

/-- A step of the session, with the sentences that are lowered in it and the code they make. -/
def Program.Makes (program : Program) (s : Session) (code : Code) (t : Session) : Prop :=
  ∃ ps, program.Lowers s ps t ∧ code.MadeOf ps

namespace Program.Makes

variable {sourceLines : List String} {program : Program} {s t u : Session} {code code' : Code}

theorem append (h : program.Makes s code t) (h' : program.Makes t code' u) :
    program.Makes s (code ++ code') u := by
  obtain ⟨ps, hps, hcode⟩ := h
  obtain ⟨qs, hqs, hcode'⟩ := h'
  exact ⟨ps ++ qs, hps.append hqs, hcode.append hcode'⟩

theorem of_control (h : ∀ instr ∈ code, instr.isControl = true) : program.Makes s code s :=
  ⟨[], .nil s, .of_control h⟩

theorem of_woven {function : Option String} {K : Clause → Prop} (h : Emit.Woven function K s code t)
    (hK : ∀ clause, K clause → program.HasClause function clause) : program.Makes s code t := by
  induction h with
  | nil s => exact .of_control (by simp)
  | append _ _ ih ih' => exact ih.append ih'
  | control h => exact .of_control (by simpa using h)
  | number s => exact ⟨[], .number s, .of_control (by simp)⟩
  | declared s asmName => exact ⟨[], .declared s asmName, .of_control (by simp)⟩
  | @clause s clause line code t hclause h =>
    let p : Passage := ⟨function, clause, line, s, code, t, h⟩
    exact ⟨[p], .passage p (hK clause hclause), by simp [p], fun instr h => .inl (by simpa [p] using h)⟩

theorem of_emitUnit {function : Option Function} {body : List Stmt}
    (hbody : ∀ clause, Stmt.BlockUses body clause →
      program.HasClause (function.map Function.name) clause)
    (h : result (Session.emitUnit function sourceLines body) s = (.ok code, t)) :
    program.Makes s code t := by
  obtain ⟨labels, q, hgives, rfl⟩ := Session.gives_of_emitUnit h
  exact of_woven (Stmt.weaves_emitBlock none body (fun _ h => h) hgives) hbody

theorem of_functions {functions : List Function} {codes : List (String × Code)}
    (hfunctions : functions ⊆ program.functions)
    (h : result (functions.mapM (Session.compileFunction sourceLines)) s = (.ok codes, t)) :
    program.Makes s (codes.flatMap Assembly.functionCode) t := by
  induction functions generalizing s codes with
  | nil =>
    simp only [List.mapM_nil, result_pure, Prod.mk.injEq, Except.ok.injEq] at h
    obtain ⟨rfl, rfl⟩ := h
    exact .of_control (by simp)
  | cons f rest ih =>
    simp only [List.mapM_cons, Session.compileFunction, result_bind_eq_ok, result_pure,
      Prod.mk.injEq, Except.ok.injEq] at h
    obtain ⟨_, s₂, ⟨code, s₁, hcode, rfl, rfl⟩, codes, s₃, hrest, rfl, rfl⟩ := h
    have hfirst := of_emitUnit (fun clause huses => .inr ⟨f, hfunctions (by simp), rfl, huses⟩) hcode
    have hreturning : program.Makes s (Session.returning code) s₁ := by
      unfold Session.returning
      split
      · exact hfirst
      · exact hfirst.append (.of_control (by simp [Instr.isControl]))
    rw [List.flatMap_cons, Assembly.functionCode, ← List.singleton_append]
    exact ((of_control (by simp [Instr.isControl])).append hreturning).append
      (ih (fun g hg => hfunctions (by simp [hg])) hrest)

end Program.Makes

/-! ## What is recorded of variables -/

/-- A session with a sound table, in which nothing but words has a value. -/
structure Session.Filled (s : Session) : Prop where
  table : s.table.Sound
  word : ∀ slot ∈ s.table.slots, slot.content ≠ none → slot.kind ≠ .struct

def Slot.recorded (asmName : String) (s : Slot) : Option String :=
  if s.asmName = asmName then s.content else none

def Session.Records (s : Session) (asmName hex : String) : Prop :=
  some hex ∈ s.table.slots.map (Slot.recorded asmName)

theorem Session.records_iff :
    s.Records asmName hex ↔ ∃ slot ∈ s.table.slots, slot.asmName = asmName ∧
      slot.content = some hex := by
  simp [Records, Slot.recorded]

theorem Session.Filled.records_unique (hs : s.Filled) {asmName hex hex' : String}
    (h : s.Records asmName hex) (h' : s.Records asmName hex') : hex = hex' := by
  obtain ⟨x, hx, hname, hcontent⟩ := Session.records_iff.mp h
  obtain ⟨y, hy, hname', hcontent'⟩ := Session.records_iff.mp h'
  obtain rfl := List.inj_on_of_nodup_map hs.table.names hx hy (hname.trans hname'.symm)
  exact Option.some.inj (hcontent.symm.trans hcontent')

theorem Lower.Grounded.of_gives {α : Type} {m : Lower α} [Grounded m] {s t : Scope} {a : α}
    (h : Gives m f s a t) : t.ground = s.ground := by
  have hground := Grounded.ground (m := m) f s
  rwa [h] at hground

theorem Lower.constEffect_records {e : Expr} {s t : Scope} {code : Code}
    (h : Gives (constEffect e) f s code t) :
    t.ground = s.ground ∨ ∃ slot hex, s.Knows slot ∧ (slot.kind = .long ∨ slot.kind = .fixed) ∧
      e.StoresTo s.ground f.function slot.asmName ∧
      t.ground.slots = (s.session.table.setContent slot.asmName hex).slots.map Slot.unmarked := by
  simp only [constEffect, gives_bind, gives_orFail] at h
  obtain ⟨w, _, ⟨hw, rfl⟩, v, s₁, hv, _, s₂, hrecord, _, s₃, hrelease, _, s₄, hpost, hpure⟩ := h
  have hground : s₁.ground = s.ground := Grounded.of_gives hv
  have hlast : t.ground = s₂.ground :=
    (Grounded.of_gives hpure).trans ((Grounded.of_gives hpost).trans (Grounded.of_gives hrelease))
  unfold recordConstant at hrecord
  split at hrecord
  · next hplain =>
    have hoffset : v.slot.offset = none := by simpa using hplain.1
    obtain ⟨target, value, line, rfl⟩ := exists_assign_of_constValue? hw
    refine .inr ⟨v.slot, Hex.ofWord w, lowerAssign_anchored hv hoffset, hplain.2, .inl ?_, ?_⟩
    · simp only [Expr.lower, Expr.lowering, Lowering.ofValue, lowerAssign, gives_bind] at hv
      obtain ⟨place, u, hplace, _, _, -, value, _, -, hv⟩ := hv
      refine ⟨target, by simp [Expr.targets], f, s, place, u, rfl, rfl, hplace, ?_⟩
      have hslot : v.slot = place.slot := by
        split at hv
        · simp at hv
        · simp only [gives_bind, gives_pure] at hv
          obtain ⟨_, _, -, rfl, -⟩ := hv
          rfl
      rw [hslot] at hoffset ⊢
      exact .word hoffset
    · rw [hlast, ← gives_modifySession.mp hrecord]
      exact Table.unmarked_setContent (congrArg Ground.slots hground) _ _
  · refine .inl (hlast.trans ?_)
    rw [← (gives_pure.mp hrecord).2, hground]

namespace Passage

variable (p : Passage)

theorem bare : p.after.session.table.bare = p.before.table.bare := by
  have := p.clause.sentence.steady
  have hbare := Lower.Steady.bare (m := p.clause.step) (p.clause.frame p.function p.line)
    (.start p.before)
  rw [← Lower.outcome_whole_snd, p.gives] at hbare
  exact hbare

variable {p}

/-- What a sentence leaves of each slot: all but marks, and the value of the variable that a `const`
sentence stores to. -/
theorem map_after {α : Type} (view : Slot → α) (hp : p.before.Filled)
    (hmarks : ∀ s, view s.unmarked = view s)
    (hvalue : p.clause.isConst = true → ∀ s, (s.kind = .long ∨ s.kind = .fixed) →
      p.Stores s.asmName → ∀ hex, view { s with content := some hex, isSet := true } = view s) :
    p.after.session.table.slots.map view = p.before.table.slots.map view := by
  have hunmarked (slots : List Slot) : slots.map view = (slots.map Slot.unmarked).map view := by
    simp [Function.comp_def, hmarks]
  have hsame (h : p.after.ground = (Scope.start p.before).ground) :
      p.after.session.table.slots.map view = p.before.table.slots.map view := by
    rw [hunmarked, show List.map Slot.unmarked _ = _ from congrArg Ground.slots h]
    exact (hunmarked p.before.table.slots).symm
  have hgives : Gives p.clause.step (p.clause.frame p.function p.line) (.start p.before) p.code
      p.after := Lower.gives_whole p.gives
  cases hclause : p.clause with
  | const e =>
    rw [hclause] at hgives
    rcases Lower.constEffect_records hgives with h | ⟨slot, hex, hknows, hkind, hstores, hslots⟩
    · exact hsame h
    · rw [hunmarked, show List.map Slot.unmarked _ = _ from hslots, ← hunmarked]
      refine Table.map_updateAsm view ({ · with content := some hex, isSet := true }) _ _
        fun y hy hname => ?_
      -- names are unique, so this slot is the one that the sentence stores to
      obtain ⟨z, hz, heq⟩ := List.mem_map.mp hknows
      have hzname := congrArg Slot.asmName heq
      have hzkind := congrArg Slot.kind heq
      obtain rfl : y = z := List.inj_on_of_nodup_map hp.table.names hy hz (hname.trans hzname.symm)
      have hykind : y.kind = slot.kind := hzkind
      refine hvalue (by simp [hclause, Clause.isConst]) y (by simpa [hykind] using hkind) ?_ hex
      rw [Stores, hclause, hname]
      exact hstores
  | _ =>
    refine hsame ?_
    have hconst : p.clause.isConst = false := by simp [hclause, Clause.isConst]
    have hground := Clause.ground hconst (p.clause.frame p.function p.line) (.start p.before)
    rwa [hgives] at hground

theorem filled (hp : p.before.Filled) : p.after.session.Filled where
  table := Table.sound_bare.mp (p.bare ▸ Table.sound_bare.mpr hp.table)
  word := by
    let structValue (s : Slot) : Option String := if s.kind = .struct then s.content else none
    have hafter : p.after.session.table.slots.map structValue =
        p.before.table.slots.map structValue := by
      refine map_after structValue hp (fun _ => rfl) fun _ s hkind _ hex => ?_
      have hs : s.kind ≠ .struct := by rcases hkind with hkind | hkind <;> simp [hkind]
      simp [structValue, hs]
    intro slot hslot hcontent hkind
    have hmem : slot.content ∈ p.before.table.slots.map structValue := by
      rw [← hafter]
      exact List.mem_map.mpr ⟨slot, hslot, by simp [structValue, hkind]⟩
    obtain ⟨y, hy, heq⟩ := List.mem_map.mp hmem
    simp only [structValue] at heq
    split at heq
    · next hstruct => exact hp.word y hy (heq ▸ hcontent) hstruct
    · exact hcontent heq.symm

theorem records (hp : p.before.Filled) {name hex : String}
    (h : p.clause.isConst = true → ¬ p.Stores name) :
    p.after.session.Records name hex ↔ p.before.Records name hex := by
  have hafter := map_after (Slot.recorded name) hp (fun _ => rfl)
    fun hconst s _ hstores hex => by
      have hname : s.asmName ≠ name := fun hname => h hconst (hname ▸ hstores)
      simp [Slot.recorded, hname]
  rw [Session.Records, hafter, Session.Records]

theorem spares (hp : p.before.Filled) (hfit : p.before.Fit) {x : Slot} (hx : x ∈ p.before.table.slots)
    (hkind : x.kind ≠ .struct) (hempty : x.asmName ≠ "") (hname : isRegisterName x.asmName = false)
    (h : ¬ p.Stores x.asmName) : p.code.Spares x.asmName := by
  let w : Watch :=
    { ground := (Scope.start p.before).ground
      function := p.function
      word := x.unmarked
      mem := List.mem_map_of_mem hx
      kind := hkind
      names := by
        simp only [Scope.ground, List.forall_mem_map]
        intro y hy z hz heq
        rw [List.inj_on_of_nodup_map hp.table.names hy hz heq]
      places := by
        simp only [Scope.ground, List.forall_mem_map]
        intro y hy z hz hky hkz ha
        rw [hp.table.eq_of_address hy hz hky hkz ha]
      registers := by
        intro r hr
        have hplain := (Scope.regular_start hp.table).ground.plain r hr
        rw [Scope.registers_start] at hr
        obtain ⟨hmem, hregister⟩ := List.mem_filter.mp hr
        refine ⟨List.mem_map_of_mem hmem, hplain, fun heq => ?_⟩
        have heq : r.asmName = x.asmName := heq
        simp [heq, hname] at hregister
      named := by
        refine ⟨hempty, fun heq => ?_⟩
        have heq : x.asmName = "r0" := heq
        simp [heq, isRegisterName] at hname }
  have htracks : w.leave.Tracks (.start p.before) :=
    ⟨Clause.tracks_start p.before, by simp [Scope.start, Reuse.target?]⟩
  exact Clause.spares (w := w) hfit.fair h rfl htracks rfl p.gives

end Passage

/-! ## Compilations -/

namespace Program.Lowers

variable {program : Program} {s t : Session} {ps : List Passage}

theorem keeps {P : Session → Prop} (hnumber : ∀ s, P s → P s.newJump.2)
    (hdeclared : ∀ s asmName, P s → P { s with table := s.table.markDeclared asmName })
    (h : program.Lowers s ps t) (hpassage : ∀ p ∈ ps, P p.before → P p.after.session) (hs : P s) :
    P t ∧ ∀ p ∈ ps, P p.before := by
  induction h with
  | nil s => exact ⟨hs, by simp⟩
  | append _ _ ih ih' =>
    obtain ⟨ht, hps⟩ := ih (fun p hp => hpassage p (by simp [hp])) hs
    obtain ⟨hu, hqs⟩ := ih' (fun p hp => hpassage p (by simp [hp])) ht
    exact ⟨hu, fun p hp => (List.mem_append.mp hp).elim (hps p) (hqs p)⟩
  | number s => exact ⟨hnumber s hs, by simp⟩
  | declared s asmName => exact ⟨hdeclared s asmName hs, by simp⟩
  | passage p => exact ⟨hpassage p (by simp) hs, by simpa using hs⟩

theorem hasClause (h : program.Lowers s ps t) :
    ∀ p ∈ ps, program.HasClause p.function p.clause := by
  induction h with
  | nil | number | declared => simp
  | append _ _ ih ih' => exact fun p hp => (List.mem_append.mp hp).elim (ih p) (ih' p)
  | passage p h => simpa using h

theorem map_markDeclared {α : Type} (view : Slot → α) (hmarks : ∀ s, view s.unmarked = view s)
    (t : Table) (asmName : String) :
    (t.markDeclared asmName).slots.map view = t.slots.map view := by
  refine Table.map_updateAsm view ({ · with isDeclared := true }) _ _ fun s _ _ => ?_
  rw [← hmarks, ← hmarks s]
  rfl

theorem bare (h : program.Lowers s ps t) :
    t.table.bare = s.table.bare ∧ ∀ p ∈ ps, p.before.table.bare = s.table.bare :=
  keeps (P := fun u => u.table.bare = s.table.bare) (fun _ hu => hu)
    (fun u asmName hu => (Table.bare_markDeclared u.table asmName).trans hu) h
    (fun p _ hp => p.bare.trans hp) rfl

theorem filled (h : program.Lowers s ps t) (hs : s.Filled) :
    t.Filled ∧ ∀ p ∈ ps, p.before.Filled := by
  refine keeps (fun u hu => ⟨hu.table, hu.word⟩) (fun u asmName hu => ⟨?_, fun slot hslot => ?_⟩) h
    (fun p _ => Passage.filled) hs
  · exact Table.sound_bare.mp
      (Table.bare_markDeclared u.table asmName ▸ Table.sound_bare.mpr hu.table)
  · have hmem := List.mem_map_of_mem (f := Slot.unmarked) hslot
    rw [map_markDeclared Slot.unmarked (fun _ => rfl)] at hmem
    obtain ⟨y, hy, heq⟩ := List.mem_map.mp hmem
    have hkind := congrArg Slot.kind heq
    have hcontent := congrArg Slot.content heq
    exact fun h hk => hu.word y hy (hcontent.trans_ne h) (hkind.trans hk)

theorem records (h : program.Lowers s ps t) (hs : s.Filled) {name hex : String}
    (hstores : ∀ p ∈ ps, p.clause.isConst = true → ¬ p.Stores name) :
    (t.Records name hex ↔ s.Records name hex) ∧
      ∀ p ∈ ps, (p.before.Records name hex ↔ s.Records name hex) := by
  have hfilled := (h.filled hs).2
  refine keeps (P := fun u => u.Records name hex ↔ s.Records name hex) (fun _ hu => hu)
    (fun u asmName hu => ?_) h (fun p hp hu => (Passage.records (hfilled p hp) (hstores p hp)).trans hu)
    Iff.rfl
  have hslots := map_markDeclared (Slot.recorded name) (fun _ => rfl) u.table asmName
  rw [← hu, Session.Records, hslots, Session.Records]

theorem fit (h : program.Lowers s ps t) (hs : s.Fit) : ∀ p ∈ ps, p.before.Fit :=
  (keeps (P := Session.Fit) (fun s hs => hs.leads (.move (.number s)))
    (fun s asmName hs => hs.leads (.move (.declared s asmName))) h
    (fun p _ hp => hp.leads (Clause.leads p.gives)) hs).2

end Program.Lowers

theorem Session.records_of_header {name : String} (h : instr ∈ s.header)
    (hwritten : instr.written? = some name) :
    ∃ hex, instr = .const (.setImmediate name hex) ∧ s.Records name hex := by
  obtain ⟨slot, hslot, hline⟩ := List.mem_flatMap.mp h
  by_cases hkind : slot.kind = .struct
  · simp [declareLines, hkind] at hline
  obtain ⟨hex, rfl⟩ : ∃ hex, instr = .const (.setImmediate name hex) := by
    cases hcontent : slot.content with
    | none =>
      obtain rfl : instr = .declare slot.asmName := by
        simpa [declareLines, hkind, hcontent] using hline
      simp [Instr.written?] at hwritten
    | some hex =>
      by_cases hfilled : slot.kind = .array ∨ slot.asmName ∈ s.autoConstants
      · obtain rfl | rfl : instr = .declare slot.asmName ∨
            instr = .const (.setImmediate slot.asmName hex) := by
          simpa [declareLines, hkind, hcontent, hfilled] using hline
        · simp [Instr.written?] at hwritten
        · obtain rfl : slot.asmName = name := by
            simpa [Instr.written?, Instr.setImmediate] using hwritten
          exact ⟨hex, rfl⟩
      · obtain rfl : instr = .declare slot.asmName := by
          simpa [declareLines, hkind, hcontent, hfilled] using hline
        simp [Instr.written?] at hwritten
  exact ⟨hex, rfl, Session.records_iff.mpr (const_header h)⟩

namespace Compilation

variable {program : Program} {c : Compiled}

theorem filled_built (r : Compilation program c) (hprogram : program.AvoidsRegisters) :
    r.built.Filled := by
  have hsound := (Session.keeps_build hprogram _ (Session.sound_start r.start_eq)).1
  rw [r.build_eq] at hsound
  refine ⟨hsound.table, fun slot hslot hcontent hkind => ?_⟩
  have hfilled := hsound.filled slot hslot hcontent
  simp [hkind] at hfilled

theorem makes_main (r : Compilation program c) :
    program.Makes r.built c.assembly.main r.emitted := by
  rw [r.code_eq]
  exact (Program.Makes.of_emitUnit (fun _ h => .inl ⟨rfl, h⟩) r.main_eq).append
    (.of_control (by simp [Instr.isControl]))

theorem makes_functions (r : Compilation program c) :
    program.Makes r.emitted (c.assembly.functions.flatMap Assembly.functionCode) r.final :=
  .of_functions (List.Subset.refl _) r.functions_eq

end Compilation

theorem Instr.written?_of_isControl (h : instr.isControl = true) : instr.written? = none := by
  cases instr <;> simp_all [isControl, written?]

theorem Lower.namedConstant?_records {s : Scope} {u : Session} {constant x : Slot} {w : Word}
    (hs : s.ground = (Scope.start u).ground)
    (hx : namedConstant? s.session.table constant = some x) (hw : constant.value? = some w) :
    u.Records x.asmName (Hex.ofWord w) ∧ x.asmName ≠ "" ∧ isRegisterName x.asmName = false := by
  obtain ⟨w', hw', hnames⟩ := namedConstant?_names hx
  obtain rfl := Option.some.inj (hw.symm.trans hw')
  refine ⟨?_, ?_⟩
  · obtain ⟨y, hy, heq⟩ := List.mem_map.mp (hs ▸ hnames.mem)
    have hname := congrArg Slot.asmName heq
    have hcontent := congrArg Slot.content heq
    exact Session.records_iff.mpr ⟨y, hy, hname, hcontent.trans hnames.content⟩
  · have hname : x.unmarked.asmName = x.asmName := rfl
    rw [← hname]
    rcases hnames.name with hn | hn <;> simp [hn, isRegisterName, toString]

/-- Where a sentence may read a variable in place of a constant, all code of the program that writes
this variable by its name sets it to the constant, from the start, unless it belongs to a sentence
that stores to the variable, or to the header after a `const` sentence that does. -/
theorem constants_kept_unless_stored {options : Options} {program : Program} {c : Compiled}
    (hprogram : program.AvoidsRegisters) (h : compile options program = .ok c) :
    ∃ (r : Compilation program c) (ps : List Passage), program.Lowers r.built ps r.final ∧
      Code.MadeOf (c.assembly.main ++ c.assembly.functions.flatMap Assembly.functionCode) ps ∧
      ∀ p ∈ ps, ∀ s : Scope, s.ground = (Scope.start p.before).ground →
        ∀ constant x w, Lower.namedConstant? s.session.table constant = some x →
          constant.value? = some w →
          ∀ instr ∈ c.assembly.code, instr.written? = some x.asmName →
            instr = .const (.setImmediate x.asmName (Hex.ofWord w)) ∨
            ∃ q ∈ ps, q.Stores x.asmName ∧
              (instr ∈ q.code ∨ instr ∈ c.assembly.header ∧ q.clause.isConst = true) := by
  obtain ⟨r⟩ := exists_compilation h
  obtain ⟨ps, hps, hmain⟩ := r.makes_main
  obtain ⟨qs, hqs, hfunctions⟩ := r.makes_functions
  have hall := hps.append hqs
  have hcode := hmain.append hfunctions
  have hbuilt := r.filled_built hprogram
  have hfilled := (hall.filled hbuilt).2
  refine ⟨r, ps ++ qs, hall, hcode, fun p hp s hs constant x w hx hw instr hinstr hwritten => ?_⟩
  obtain ⟨hrecords, hempty, hregister⟩ := Lower.namedConstant?_records hs hx hw
  rw [Assembly.code, List.append_assoc, List.mem_append] at hinstr
  rcases hinstr with hheader | hinstr
  · by_cases hstored : ∃ q ∈ ps ++ qs, q.clause.isConst = true ∧ q.Stores x.asmName
    · obtain ⟨q, hq, hconst, hstores⟩ := hstored
      exact .inr ⟨q, hq, hstores, .inr ⟨hheader, hconst⟩⟩
    · push Not at hstored
      obtain ⟨hex, rfl, hemitted⟩ := Session.records_of_header (r.header_eq ▸ hheader) hwritten
      -- the header and the sentence both see what was recorded before the first sentence
      have hbefore := ((hall.records hbuilt hstored).2 p hp).mp hrecords
      have hfirst := (hps.records hbuilt fun q hq => hstored q (by simp [hq])).1.mp hemitted
      rw [hbuilt.records_unique hfirst hbefore]
      exact .inl rfl
  · rcases hcode.control instr hinstr with hinstr | hcontrol
    · obtain ⟨q, hq, hinstr⟩ := List.mem_flatMap.mp hinstr
      by_cases hstores : q.Stores x.asmName
      · exact .inr ⟨q, hq, hstores, .inl hinstr⟩
      -- the same word in the session of that sentence
      obtain ⟨y, hy, hyname, hycontent⟩ := Session.records_iff.mp hrecords
      have hykind := (hfilled p hp).word y hy (by simp [hycontent])
      have hbare : y.bare ∈ q.before.table.bare.slots := by
        rw [(hall.bare.2 q hq).trans (hall.bare.2 p hp).symm]
        exact List.mem_map_of_mem hy
      obtain ⟨z, hz, heq⟩ := List.mem_map.mp hbare
      have hzname := congrArg Slot.asmName heq
      have hzname : z.asmName = x.asmName := hzname.trans hyname
      have hzkind := congrArg Slot.kind heq
      have hspares := Passage.spares (hfilled q hq) (hall.fit r.fit_built q hq) hz (hzkind.trans_ne hykind) (by rwa [hzname])
        (by rwa [hzname]) (by rwa [hzname])
      exact absurd hwritten (hzname ▸ hspares instr hinstr)
    · simp [Instr.written?_of_isControl hcontrol] at hwritten

/-- `long a; n1 = 5; a = 1;`, where `n1` is a ready-made constant. -/
def overwrittenConstant : Program where
  main := [
    .declaration [.keyword "long" 1, .ident "a" 1],
    .expression (.assign none (.var "n1" 2) (.constant "0000000000000005" false 2) 2),
    .expression (.assign none (.var "a" 3) (.constant "0000000000000001" false 3) 3)]

/-- The main code overwrites `n1` and reads it in place of 1. The instruction that does so is found
in a sentence that stores to `n1`. -/
theorem overwrittenConstant_stored :
    ∃ c, compile { constants := 1 } overwrittenConstant = .ok c ∧
      overwrittenConstant.AvoidsRegisters ∧
      c.assembly.main = [.setImmediate "n1" "0000000000000005", .move "a" "n1", .finish] ∧
      ∃ (r : Compilation overwrittenConstant c) (ps : List Passage),
        overwrittenConstant.Lowers r.built ps r.final ∧
        ∃ q ∈ ps, q.Stores "n1" ∧ .setImmediate "n1" "0000000000000005" ∈ q.code := by
  have hprogram : overwrittenConstant.AvoidsRegisters := by decide
  have hcompiled : ((compile { constants := 1 } overwrittenConstant).toOption.any fun c =>
      c.assembly.main = [.setImmediate "n1" "0000000000000005", .move "a" "n1", .finish] ∧
      .const (.setImmediate "n1" (Hex.ofWord 1)) ∈ c.assembly.header ∧
      .setImmediate "n1" "0000000000000005" ∉ c.assembly.header) = true := by
    decide +kernel
  obtain ⟨c, hc, hcompiled⟩ := (Option.any_eq_true _ _).mp hcompiled
  obtain ⟨hmain, hheader, hother⟩ := of_decide_eq_true hcompiled
  have hc := eq_ok_of_toOption hc
  obtain ⟨r, ps, hps, hcode, hstored⟩ := constants_kept_unless_stored hprogram hc
  have hconst {s t : Session} {ps : List Passage} (h : overwrittenConstant.Lowers s ps t) :
      ∀ p ∈ ps, p.clause.isConst = true → ¬ p.Stores "n1" := by
    intro p hp hconst
    have hclause := h.hasClause p hp
    simp only [Program.HasClause, overwrittenConstant, Stmt.BlockUses, Stmt.Uses, false_or, or_false,
      List.not_mem_nil, false_and, exists_false] at hclause
    rcases hclause.2 with h | h <;> simp [h, Clause.isConst] at hconst
  have hfilled := r.filled_built hprogram
  have hbuilt : r.built.Records "n1" (Hex.ofWord 1) := by
    obtain ⟨ps', hps', -⟩ := r.makes_main
    rw [← (hps'.records hfilled (hconst hps')).1, Session.records_iff]
    exact Session.const_header (r.header_eq ▸ hheader)
  -- any sentence of the program finds `n1` for the constant, here the one that overwrites it
  obtain ⟨p, hp, -⟩ : ∃ p ∈ ps, .setImmediate "n1" "0000000000000005" ∈ p.code := by
    have h := hcode.control (.setImmediate "n1" "0000000000000005") (by simp [hmain])
    simpa [Instr.setImmediate, Instr.isControl] using h
  have hrecords := ((hps.records hfilled (hconst hps)).2 p hp).mpr hbuilt
  obtain ⟨x, hx⟩ : ∃ x, p.before.table.findConstant? "n1" (Hex.ofWord 1) = some x := by
    obtain ⟨y, hy, hname, hcontent⟩ := Session.records_iff.mp hrecords
    rw [← Option.isSome_iff_exists, Table.findConstant?, List.find?_isSome]
    exact ⟨y, hy, by simp [hname, hcontent]⟩
  have hname : x.asmName = "n1" := by
    have h := List.find?_some hx
    simp only [Bool.and_eq_true, decide_eq_true_eq] at h
    exact h.1
  have hone : (Slot.constant "0000000000000001").value? = some 1 := by decide +kernel
  have hnamed : Lower.namedConstant? p.before.table (.constant "0000000000000001") = some x := by
    simp only [Lower.namedConstant?, hone, Option.bind_eq_bind, Option.bind_some]
    exact hx
  obtain h | ⟨q, hq, hstores, hinstr⟩ := hstored p hp (.start p.before) rfl _ x 1 hnamed hone
    (.setImmediate "n1" "0000000000000005") (by simp [Assembly.code, hmain])
    (by simp [Instr.setImmediate, Instr.written?, hname])
  · simp [Instr.setImmediate] at h
  · refine ⟨c, hc, hprogram, hmain, r, ps, hps, q, hq, hname ▸ hstores, ?_⟩
    simpa [hother] using hinstr

end Flatword
