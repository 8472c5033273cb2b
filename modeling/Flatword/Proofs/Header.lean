import Flatword.Proofs.Blocks
import Flatword.Proofs.Leak
import Flatword.Proofs.Place

/-!
# The header of a program

The header declares the words of the table in the order of their addresses. Emitting code changes
marks and the values of plain variables only, so the table at the end of a compilation is laid out as
its declarations have laid it out.
-/

namespace Flatword

/-! ## What emitting code leaves of the layout -/

/-- A slot without its marks, and without its value unless it is an array. -/
def Slot.outline (s : Slot) : Slot :=
  { s with isSet := false, isDeclared := false,
           content := if s.kind = .array then s.content else none }

/-- Every header of an array holds the address of the word behind it. -/
def Table.Headed (t : Table) : Prop :=
  ∀ s ∈ t.slots, s.kind = .array →
    ∃ a, s.address = some a ∧ s.content = some (Hex.ofWord (UInt64.ofNat (a + 1)))

theorem Table.Headed.congr {t u : Table} (h : t.Headed)
    (houtline : u.slots.map Slot.outline = t.slots.map Slot.outline) : u.Headed := by
  intro s hs harray
  have hmem : s.outline ∈ t.slots.map Slot.outline := houtline ▸ List.mem_map_of_mem hs
  obtain ⟨x, hx, heq⟩ := List.mem_map.mp hmem
  have hkind := congrArg Slot.kind heq
  have haddress := congrArg Slot.address heq
  have hcontent := congrArg Slot.content heq
  have hxarray : x.kind = .array := hkind.trans harray
  simp only [Slot.outline, hxarray, harray, if_true] at hcontent
  obtain ⟨a, ha, hc⟩ := h x hx hxarray
  exact ⟨a, haddress.symm.trans ha, hcontent ▸ hc⟩

theorem Table.Laid.congr {t u : Table} (h : t.Laid)
    (houtline : u.slots.map Slot.outline = t.slots.map Slot.outline) (hnext : u.next = t.next) :
    u.Laid := by
  have hview {α : Type} (view : Slot → α) (hv : ∀ s, view s.outline = view s) :
      u.slots.map view = t.slots.map view := by
    have := congrArg (List.map view) houtline
    simpa [Function.comp_def, hv] using this
  refine ⟨h.layout.congr (hview _ fun _ => rfl) (hview _ fun _ => rfl) (hview _ fun _ => rfl) hnext,
    ?_, fun s hs harray => ?_⟩
  · have hpairs : List.Forall₂ (fun s s' : Slot => s.outline = s'.outline) t.slots u.slots := by
      have heq : List.Forall₂ Eq (t.slots.map Slot.outline) (u.slots.map Slot.outline) := by
        rw [houtline, List.forall₂_eq_eq_eq]
      rwa [List.forall₂_map_left_iff, List.forall₂_map_right_iff] at heq
    refine h.blocks.transport ?_ ?_ ?_ hpairs
    · intro s s' heq
      have hkind := congrArg Slot.kind heq
      exact hkind.symm
    · intro s s' heq
      have hitem := congrArg Slot.item heq
      exact hitem.symm
    · rintro s s' x x' hs hx ⟨rest, hrest⟩
      have hs := congrArg Slot.asmName hs
      have hx := congrArg Slot.asmName hx
      exact ⟨rest, hs.symm.trans (hrest.trans (congrArg (· ++ "_" ++ rest) hx))⟩
  · exact Table.Headed.congr h.contents houtline s hs harray

theorem Table.unmarked_setContent {t u : Table}
    (h : t.slots.map Slot.unmarked = u.slots.map Slot.unmarked) (asmName hex : String) :
    (t.setContent asmName hex).slots.map Slot.unmarked =
      (u.setContent asmName hex).slots.map Slot.unmarked := by
  have hgo (slots : List Slot) :
      (updateAsm.go asmName ({ · with content := some hex, isSet := true }) slots).map
          Slot.unmarked =
        updateAsm.go asmName ({ · with content := some hex }) (slots.map Slot.unmarked) := by
    induction slots with
    | nil => rfl
    | cons s rest ih =>
      have hname : s.unmarked.asmName = s.asmName := rfl
      simp only [updateAsm.go, List.map_cons, hname]
      split
      · rfl
      · rw [List.map_cons, ih]
  exact (hgo t.slots).trans (h ▸ (hgo u.slots).symm)

namespace Lower

variable {α β : Type}

/-- A step that leaves the ground as it is, whether it fails or not. -/
class Grounded (m : Lower α) : Prop where
  ground : ∀ f s, (outcome m f s).2.ground = s.ground

instance (m : Lower α) [Orderly m] : Grounded m where
  ground f s := (Orderly.leads (m := m) f s).ground

instance (m : Lower α) (k : α → Lower β) [Grounded m] [∀ a, Grounded (k a)] : Grounded (m >>= k) where
  ground f s := by
    have hm := Grounded.ground (m := m) f s
    rw [outcome_bind]
    rcases h : outcome m f s with ⟨_ | a, t⟩ <;> rw [h] at hm
    · exact hm
    · exact (Grounded.ground f t).trans hm

instance : Grounded (get : Lower Scope) where
  ground _ _ := rfl

instance : Grounded allowReuse where
  ground _ _ := rfl

instance : Grounded takePost where
  ground _ _ := rfl

theorem exists_assign_of_constValue? {e : Expr} {w : Word} (h : constValue? e = some w) :
    ∃ target value line, e = .assign none target value line := by
  unfold constValue? at h
  split at h
  · exact ⟨_, _, _, rfl⟩
  · simp at h

theorem exists_slot_of_constValue? {e : Expr} {w : Word} {v : Lowered} {f : Frame} {s t : Scope}
    (hvalue : constValue? e = some w) (h : Gives e.lower f s v t) (hoffset : v.slot.offset.isNone) :
    ∃ slot ∈ t.session.table.slots, slot.asmName = v.slot.asmName ∧ slot.kind = v.slot.kind := by
  obtain ⟨target, value, line, rfl⟩ := exists_assign_of_constValue? hvalue
  have hknows : t.Knows v.slot :=
    (lowerAssign_anchored h (by simpa using hoffset)).congr (leads_of_gives h).ground
  obtain ⟨slot, hslot, heq⟩ := List.mem_map.mp hknows
  simp only [Slot.unmarked, Slot.mk.injEq] at heq
  exact ⟨slot, hslot, by simp [heq], by simp [heq]⟩

theorem constEffect_ground (e : Expr) (f : Frame) (s : Scope) :
    (outcome (constEffect e) f s).2.ground = s.ground ∨
      ∃ w slot, constValue? e = some w ∧ s.Knows slot ∧
        (slot.kind = .long ∨ slot.kind = .fixed) ∧ (outcome (constEffect e) f s).2.ground.slots =
          (s.session.table.setContent slot.asmName (Hex.ofWord w)).slots.map Slot.unmarked := by
  have hrest (v : Lowered) (u : Scope) :
      (outcome (do
        releaseOperand v.slot
        let post ← takePost
        return v.code.map Instr.const ++ post) f u).2.ground = u.ground :=
    Grounded.ground f u
  rw [constEffect, outcome_bind]
  cases hvalue : constValue? e with
  | none => exact .inl rfl
  | some w =>
    have hleads := Orderly.leads (m := e.lower) f s
    rw [orFail, outcome_pure]
    dsimp only
    rw [outcome_bind]
    rcases hlower : outcome e.lower f s with ⟨_ | v, t⟩ <;> rw [hlower] at hleads
    · exact .inl hleads.ground
    dsimp only
    rw [outcome_bind]
    by_cases hplain : v.slot.offset.isNone ∧ (v.slot.kind = .long ∨ v.slot.kind = .fixed)
    · refine .inr ⟨w, v.slot, rfl, ?_, hplain.2, ?_⟩
      · obtain ⟨target, value, line, rfl⟩ := exists_assign_of_constValue? hvalue
        exact lowerAssign_anchored hlower (by simpa using hplain.1)
      · rw [recordConstant, if_pos hplain]
        refine (congrArg Ground.slots (hrest v _)).trans ?_
        exact Table.unmarked_setContent (congrArg Ground.slots hleads.ground) _ _
    · rw [recordConstant, if_neg hplain, outcome_pure]
      exact .inl ((hrest v t).trans hleads.ground)

theorem Sentence.ground {k : Lower Code} (h : Sentence k) (f : Frame) (s : Scope) :
    (outcome k f s).2.ground = s.ground ∨
      ∃ e w slot, k = Lower.constEffect e ∧ constValue? e = some w ∧ s.Knows slot ∧
        (slot.kind = .long ∨ slot.kind = .fixed) ∧ (outcome k f s).2.ground.slots =
          (s.session.table.setContent slot.asmName (Hex.ofWord w)).slots.map Slot.unmarked := by
  cases h with
  | effect e => exact .inl (by unfold Lower.effect; exact Grounded.ground f s)
  | condition e b => exact .inl (by unfold Lower.condition; exact Grounded.ground f s)
  | returnValue e => exact .inl (by unfold Lower.returnValue; exact Grounded.ground f s)
  | constEffect e =>
    rcases constEffect_ground e f s with h | ⟨w, slot, hvalue, h⟩
    · exact .inl h
    · exact .inr ⟨e, w, slot, rfl, hvalue, h⟩

end Lower

namespace Session

variable {s t : Session}

theorem Move.outline (h : s.Move t) (hnames : (s.table.slots.map Slot.asmName).Nodup) :
    t.table.slots.map Slot.outline = s.table.slots.map Slot.outline := by
  cases h with
  | number => rfl
  | declared asmName =>
    exact Table.map_updateAsm _ ({ · with isDeclared := true }) _ _ fun _ _ _ => rfl
  | @sentence k hk f =>
    have houtline (slots : List Slot) :
        slots.map Slot.outline = (slots.map Slot.unmarked).map Slot.outline := by
      rw [List.map_map]
      rfl
    rcases hk.ground f (.start s) with hground | ⟨e, w, slot, -, -, hknows, hkind, hslots⟩
    · have hslots := congrArg Ground.slots hground
      rw [houtline, show List.map Slot.unmarked _ = _ from hslots]
      exact (houtline s.table.slots).symm
    · rw [houtline, show List.map Slot.unmarked _ = _ from hslots, ← houtline]
      refine Table.map_updateAsm _ ({ · with content := some _, isSet := true }) _ _
        fun x hx hname => ?_
      -- the slot of that name is the one that the sentence assigns to, so it is no array
      obtain ⟨y, hy, hyslot⟩ := List.mem_map.mp hknows
      have hyname := congrArg Slot.asmName hyslot
      have hykind := congrArg Slot.kind hyslot
      obtain rfl : x = y :=
        List.inj_on_of_nodup_map hnames hx hy (hname.trans hyname.symm)
      have hxkind : x.kind ≠ .array := by
        have hxkind : x.kind = slot.kind := hykind
        rcases hkind with hkind | hkind <;> simp [hxkind, hkind]
      simp [Slot.outline, hxkind]

theorem Move.laid (h : s.Move t) (hs : s.table.Laid) : t.table.Laid :=
  hs.congr (h.outline hs.layout.names) (congrArg Table.next h.bare :)

theorem Leads.laid (h : s.Leads t) (hs : s.table.Laid) : t.table.Laid :=
  h.preserves (P := fun u => u.table.Laid) Move.laid hs

/-! ## Compilations -/

theorem result_runEmit {α : Type} (r : Routine) (step : Emit α) (s : Session) :
    result (runEmit r step) s =
      ((outcome step r { session := s }).1, (outcome step r { session := s }).2.session) := by
  have hstep : ((step.run r).run).run { session := s } = outcome step r { session := s } := rfl
  simp only [runEmit, result_bind, result_get, hstep]
  rcases outcome step r { session := s } with ⟨_ | a, p⟩ <;> rfl

theorem leads_emitUnit (function : Option Function) (sourceLines : List String)
    (body : List Stmt) : Keeps s.Leads (emitUnit function sourceLines body) fun _ => True := by
  intro u hu
  refine ⟨?_, fun _ _ => trivial⟩
  unfold emitUnit
  split
  · exact hu
  · have := Stmt.traced_emitBlock none body fun _ h => h
    rw [result_runEmit]
    exact hu.trans (Emit.Traced.leads (Stmt.BlockUses body) _ { session := u })

end Session

/-- The steps of a compilation: the layout of all declarations, the main code, the header, and the
functions. -/
structure Compilation (program : Program) (c : Compiled) where
  options : Options
  start : Session
  built : Session
  emitted : Session
  final : Session
  main : Code
  start_eq : Session.start options = .ok start
  build_eq : result (Session.build program) start = (.ok (), built)
  main_eq : result (Session.emitUnit none program.sourceLines program.main) built =
    (.ok main, emitted)
  functions_eq : result (program.functions.mapM (Session.compileFunction program.sourceLines))
    emitted = (.ok c.assembly.functions, final)
  header_eq : c.assembly.header = emitted.header
  code_eq : c.assembly.main = main ++ [.finish]
  table_eq : c.table = final.table

theorem exists_compilation {options : Options} {program : Program} {c : Compiled}
    (h : compile options program = .ok c) : Nonempty (Compilation program c) := by
  rcases hpragmas : (Options.applyPragmas program.pragmas).run.run options with ⟨_ | _, options⟩ <;>
    simp only [compile, hpragmas, bind, Except.bind] at h
  · exact nomatch h
  split at h
  · exact nomatch h
  next start hstart =>
  have hassemble : (Session.assemble program).run.run start =
    result (Session.assemble program) start := rfl
  simp only [Session.compile, hassemble] at h
  rcases hresult : result (Session.assemble program) start with ⟨_ | assembly, final⟩ <;>
    rw [hresult] at h
  · exact nomatch h
  obtain rfl := Except.ok.inj h
  simp only [Session.assemble, result_bind_eq_ok, result_get, result_pure, Prod.mk.injEq,
    Except.ok.injEq] at hresult
  obtain ⟨_, built, hbuild, main, emitted, hmain, _, _, ⟨rfl, rfl⟩, functions, _, hfunctions, rfl,
    rfl⟩ := hresult
  exact ⟨⟨_, start, built, _, _, main, hstart, hbuild, hmain, hfunctions, rfl, rfl, rfl⟩⟩

namespace Compilation

variable {program : Program} {c : Compiled}

theorem leads_emitted (r : Compilation program c) : r.built.Leads r.emitted := by
  have h := (Session.leads_emitUnit none program.sourceLines program.main r.built (.refl _)).1
  rwa [r.main_eq] at h

theorem leads_final (r : Compilation program c) : r.emitted.Leads r.final := by
  have hfunction (f : Function) :
      Keeps r.emitted.Leads (Session.compileFunction program.sourceLines f) fun _ => True :=
    keeps_bind (Session.leads_emitUnit (some f) program.sourceLines f.body) fun _ _ =>
      keeps_pure trivial
  have hfunctions : Keeps r.emitted.Leads
      (program.functions.mapM (Session.compileFunction program.sourceLines)) fun _ => True :=
    keeps_mapM fun f _ => hfunction f
  have h := (hfunctions r.emitted (.refl _)).1
  rwa [r.functions_eq] at h

theorem laid_emitted (r : Compilation program c) : r.emitted.table.Laid :=
  r.leads_emitted.laid ((Session.laid_start r.start_eq).build r.build_eq).table

theorem laid_final (r : Compilation program c) : r.final.table.Laid :=
  r.leads_final.laid r.laid_emitted

end Compilation

/-! ## The words of a table -/

def wordSlots (slots : List Slot) : List Slot :=
  slots.filter (·.kind ≠ .struct)

@[simp]
theorem wordSlots_append (front back : List Slot) :
    wordSlots (front ++ back) = wordSlots front ++ wordSlots back :=
  List.filter_append ..

theorem length_wordSlots (slots : List Slot) :
    (wordSlots slots).length = wordCount (slots.map Slot.kind) := by
  rw [wordSlots, ← List.countP_eq_length_filter, wordCount, List.countP_map]
  rfl

theorem exists_split_of_getElem?_wordSlots {slots : List Slot} {k : Nat} {s : Slot}
    (h : (wordSlots slots)[k]? = some s) :
    ∃ front back, slots = front ++ s :: back ∧ (wordSlots front).length = k := by
  induction slots generalizing k with
  | nil => simp [wordSlots] at h
  | cons x rest ih =>
    by_cases hkind : x.kind = .struct
    · have hskip : wordSlots (x :: rest) = wordSlots rest := by simp [wordSlots, hkind]
      obtain ⟨front, back, rfl, hlength⟩ := ih (hskip ▸ h)
      exact ⟨x :: front, back, rfl, by simpa [wordSlots, hkind] using hlength⟩
    · have htake : wordSlots (x :: rest) = x :: wordSlots rest := by simp [wordSlots, hkind]
      rw [htake] at h
      cases k with
      | zero =>
        obtain rfl : x = s := by simpa using h
        exact ⟨[], rest, rfl, rfl⟩
      | succ k =>
        obtain ⟨front, back, rfl, hlength⟩ := ih (by simpa using h)
        exact ⟨x :: front, back, rfl, by simpa [wordSlots, hkind] using hlength⟩

namespace Table

variable {t : Table}

theorem LaidOut.address_of_split (h : t.LaidOut) {front back : List Slot} {s : Slot}
    (hsplit : t.slots = front ++ s :: back) : s.address = some (wordSlots front).length := by
  have hlt : front.length < t.slots.length := by simp [hsplit]
  have haddress := h.address_getElem hlt
  simpa [hsplit, length_wordSlots] using haddress

theorem LaidOut.findAt?_wordSlots (h : t.LaidOut) {k : Nat} {s : Slot}
    (hk : (wordSlots t.slots)[k]? = some s) : t.findAt? k = some s := by
  obtain ⟨hlt, hget⟩ := List.getElem?_eq_some_iff.mp hk
  obtain ⟨hmem, hkind⟩ := List.mem_filter.mp (hget ▸ List.getElem_mem hlt : s ∈ wordSlots t.slots)
  obtain ⟨front, back, hsplit, hlength⟩ := exists_split_of_getElem?_wordSlots hk
  have haddress : s.address = some k := hlength ▸ h.address_of_split hsplit
  have hwords : k < t.words := by rwa [words, h.next, ← length_wordSlots]
  obtain ⟨i, hi, hfind, honly⟩ := h.findAt?_eq_some hwords
  obtain ⟨j, hj, rfl⟩ := List.getElem_of_mem hmem
  obtain rfl := (honly j hj).mp ⟨haddress, by simpa using hkind⟩
  exact hfind

theorem Laid.exists_cells (h : t.Laid) {header : Slot} (hmem : header ∈ t.slots)
    (harray : header.kind = .array) :
    ∃ (a : Nat) (item : ArrayItem) (cells : List Slot), header.address = some a ∧
      header.item = some item ∧ cells.length + 1 = item.totalSize ∧
      (∀ cell ∈ cells, cell.Under header) ∧
      ∀ (i : Nat) (hi : i < cells.length), (wordSlots t.slots)[a + 1 + i]? = some cells[i] := by
  obtain ⟨front, back, hsplit⟩ := List.append_of_mem hmem
  obtain ⟨body, ⟨rest, rfl⟩, ⟨item, hitem, hsize⟩, hunder⟩ := (hsplit ▸ h.blocks).spans harray
  have hwords : wordSlots t.slots =
      wordSlots front ++ header :: (wordSlots body ++ wordSlots rest) := by
    rw [hsplit, wordSlots_append, ← List.singleton_append, wordSlots_append, wordSlots_append]
    simp [wordSlots, harray]
  refine ⟨(wordSlots front).length, item, wordSlots body, h.layout.address_of_split hsplit, hitem,
    by rw [length_wordSlots, hsize], fun cell hcell => hunder cell (List.mem_of_mem_filter hcell),
    fun i hi => ?_⟩
  rw [hwords, List.getElem?_append_right (by omega),
    show (wordSlots front).length + 1 + i - (wordSlots front).length = i + 1 by omega,
    List.getElem?_cons_succ, List.getElem?_append_left hi, List.getElem?_eq_getElem hi]

end Table

/-- The name that a line declares. -/
def Instr.declared? : Instr → Option String
  | declare name => some name
  | _ => none

theorem Session.declared_header (s : Session) :
    s.header.filterMap Instr.declared? = (wordSlots s.table.slots).map Slot.asmName := by
  have hlines (slot : Slot) : (s.declareLines slot).filterMap Instr.declared? =
      (wordSlots [slot]).map Slot.asmName := by
    unfold declareLines wordSlots
    by_cases hkind : slot.kind = .struct
    · simp [hkind]
    · rw [if_neg hkind]
      dsimp only
      split
      · split <;> simp [hkind, Instr.declared?]
      · simp [hkind, Instr.declared?]
  unfold header
  induction s.table.slots with
  | nil => rfl
  | cons slot rest ih =>
    rw [List.flatMap_cons, List.filterMap_append, hlines, ih, ← List.map_append,
      ← wordSlots_append, List.singleton_append]

theorem Session.filled_of_const_header {s : Session} {name hex : String}
    (h : .const (.setImmediate name hex) ∈ s.header) :
    ∃ x ∈ s.table.slots, x.asmName = name ∧ x.content = some hex ∧ x.kind ≠ .struct ∧
      (x.kind = .array ∨ x.asmName ∈ s.autoConstants) := by
  obtain ⟨x, hx, h⟩ := List.mem_flatMap.mp h
  by_cases hkind : x.kind = .struct
  · simp [declareLines, hkind] at h
  cases hcontent : x.content with
  | none => simp [declareLines, hkind, hcontent] at h
  | some content =>
    by_cases hfilled : x.kind = .array ∨ x.asmName ∈ s.autoConstants
    · obtain ⟨rfl, rfl⟩ : name = x.asmName ∧ hex = content := by
        simpa [declareLines, hkind, hcontent, hfilled, Instr.setImmediate] using h
      exact ⟨x, hx, rfl, hcontent, hkind, hfilled⟩
    · simp [declareLines, hkind, hcontent, hfilled] at h

theorem Session.const_header {s : Session} {asmName hex : String}
    (h : .const (.setImmediate asmName hex) ∈ s.header) :
    ∃ slot ∈ s.table.slots, slot.asmName = asmName ∧ slot.content = some hex := by
  obtain ⟨slot, hslot, hname, hcontent, -⟩ := filled_of_const_header h
  exact ⟨slot, hslot, hname, hcontent⟩

namespace Compilation

variable {program : Program} {c : Compiled}

theorem declared_eq (r : Compilation program c) :
    c.assembly.header.filterMap Instr.declared? = (wordSlots c.table.slots).map Slot.asmName := by
  have hnames (t : Table) :
      (wordSlots t.bare.slots).map Slot.asmName = (wordSlots t.slots).map Slot.asmName := by
    simp only [wordSlots, Table.bare, List.filter_map, List.map_map]
    rfl
  rw [r.header_eq, Session.declared_header, r.table_eq, ← hnames, ← r.leads_final.bare, hnames]

theorem array_lines (r : Compilation program c) {slot : Slot} (hslot : slot ∈ c.table.slots)
    (harray : slot.kind = .array) {a : Nat} (ha : slot.address = some a) {hex : String}
    (hhex : hex = Hex.ofWord (UInt64.ofNat (a + 1))) :
    [.declare slot.asmName, .const (.setImmediate slot.asmName hex)] <:+: c.assembly.header ∧
      ∀ other, .const (.setImmediate slot.asmName other) ∈ c.assembly.header → other = hex := by
  -- the same array in the table from which the header was taken
  obtain ⟨x, hx, hbare⟩ : ∃ x ∈ r.emitted.table.slots, x.bare = slot.bare := by
    have hmem : slot.bare ∈ r.final.table.bare.slots :=
      List.mem_map_of_mem (r.table_eq ▸ hslot)
    rw [r.leads_final.bare] at hmem
    exact List.mem_map.mp hmem
  have hname := congrArg Slot.asmName hbare
  have hname : x.asmName = slot.asmName := hname
  have hkind := congrArg Slot.kind hbare
  have hkind : x.kind = .array := hkind.trans harray
  have haddress := congrArg Slot.address hbare
  have hcontent : x.content = some hex := by
    obtain ⟨b, hb, hcontent⟩ := r.laid_emitted.contents x hx hkind
    obtain rfl : a = b := Option.some.inj (ha.symm.trans (haddress.symm.trans hb))
    rw [hcontent, hhex]
  rw [r.header_eq, ← hname]
  constructor
  · obtain ⟨front, back, hsplit⟩ := List.append_of_mem hx
    refine ⟨front.flatMap r.emitted.declareLines, back.flatMap r.emitted.declareLines, ?_⟩
    simp [Session.header, hsplit, Session.declareLines, hkind, hcontent]
  · intro other hother
    obtain ⟨y, hy, hyname, hycontent⟩ := Session.const_header hother
    obtain rfl := List.inj_on_of_nodup_map r.laid_emitted.layout.names hy hx hyname
    exact Option.some.inj (hycontent.symm.trans hcontent)

end Compilation

/-- The header of a program describes its layout. Its declarations name the words in the order of
their addresses, each once. An array is declared right before its own words, as many as it says, and
is set to the address of the first of them. -/
theorem header_describes_layout {options : Options} {program : Program} {c : Compiled}
    (h : compile options program = .ok c) :
    let names := c.assembly.header.filterMap Instr.declared?
    names.length = c.table.words ∧ names.Nodup ∧
    (∀ (k : Nat) (hk : k < names.length), ∃ slot, c.table.findAt? k = some slot ∧
      slot.asmName = names[k]) ∧
    ∀ header ∈ c.table.slots, header.kind = .array →
      ∃ (a : Nat) (item : ArrayItem) (cells : List Slot) (hex : String),
        header.address = some a ∧ header.item = some item ∧ cells.length + 1 = item.totalSize ∧
        (∀ (i : Nat) (hi : i < cells.length), c.table.findAt? (a + 1 + i) = some cells[i] ∧
          names[a + 1 + i]? = some cells[i].asmName ∧ cells[i].Under header) ∧
        hex = Hex.ofWord (UInt64.ofNat (a + 1)) ∧ header.content = some hex ∧
        [.declare header.asmName, .const (.setImmediate header.asmName hex)] <:+:
          c.assembly.header ∧
        ∀ other, .const (.setImmediate header.asmName other) ∈ c.assembly.header → other = hex := by
  intro names
  obtain ⟨r⟩ := exists_compilation h
  have hlaid : c.table.Laid := r.table_eq ▸ r.laid_final
  have hnames : names = (wordSlots c.table.slots).map Slot.asmName := r.declared_eq
  refine ⟨?_, ?_, fun k hk => ?_, fun header hheader harray => ?_⟩
  · rw [hnames, List.length_map, length_wordSlots, Table.words, hlaid.layout.next]
  · rw [hnames]
    exact (List.filter_sublist.map Slot.asmName).nodup hlaid.layout.names
  · have hk' : k < (wordSlots c.table.slots).length := by simpa [hnames] using hk
    refine ⟨_, hlaid.layout.findAt?_wordSlots (List.getElem?_eq_getElem hk'), ?_⟩
    simp [hnames]
  · obtain ⟨a, item, cells, ha, hitem, hsize, hunder, hcells⟩ :=
      hlaid.exists_cells hheader harray
    obtain ⟨b, hb, hcontent⟩ := hlaid.contents header hheader harray
    obtain rfl : a = b := Option.some.inj (ha.symm.trans hb)
    refine ⟨a, item, cells, _, ha, hitem, hsize, fun i hi => ⟨?_, ?_, ?_⟩, rfl, hcontent,
      r.array_lines hheader harray ha rfl⟩
    · exact hlaid.layout.findAt?_wordSlots (hcells i hi)
    · rw [hnames, List.getElem?_map, hcells i hi]
      rfl
    · exact hunder _ (List.getElem_mem hi)

/-- A struct with a word `x` and an array `t` of two words, and an array of two such structs. -/
def recordProgram : Program where
  main := [
    .structDefinition "P" [.keyword "long" 1, .ident "x" 1, .comma 1, .ident "t" 1, .array 2 1] 1,
    .declaration [.struct "P" 2, .ident "ps" 2, .array 2 2]]

/-- The array in the second struct lies at address 9 and is set to 10. -/
theorem recordProgram_sets_member_array :
    ∃ c slot, compile {} recordProgram = .ok c ∧ slot ∈ c.table.slots ∧ slot.kind = .array ∧
      slot.address = some 9 ∧
      [.declare slot.asmName, .const (.setImmediate slot.asmName "000000000000000a")] <:+:
        c.assembly.header := by
  have hfound : ((compile {} recordProgram).toOption.bind fun c =>
      c.table.slots.find? fun s => s.kind = .array && s.address = some 9).isSome = true := by
    decide +kernel
  obtain ⟨slot, hslot⟩ := Option.isSome_iff_exists.mp hfound
  obtain ⟨c, hc, hslot⟩ := Option.bind_eq_some_iff.mp hslot
  have hcompile : compile {} recordProgram = .ok c := by
    cases h : compile {} recordProgram with
    | error e => simp [h, Except.toOption] at hc
    | ok d => simpa [h, Except.toOption] using hc
  have hmem := List.mem_of_find?_eq_some hslot
  have hkind := List.find?_some hslot
  simp only [Bool.and_eq_true, decide_eq_true_eq] at hkind
  obtain ⟨-, -, -, harrays⟩ := header_describes_layout hcompile
  obtain ⟨a, -, -, hex, ha, -, -, -, rfl, -, hlines, -⟩ := harrays slot hmem hkind.1
  obtain rfl : 9 = a := Option.some.inj (hkind.2.symm.trans ha)
  have hten : Hex.ofWord (UInt64.ofNat (9 + 1)) = "000000000000000a" := by decide
  exact ⟨c, slot, hcompile, hmem, hkind.1, hkind.2, hten ▸ hlines⟩

end Flatword
