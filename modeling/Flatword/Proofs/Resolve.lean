import Flatword.Proofs.Constants
import Flatword.Proofs.Jumps

/-!
# What instructions refer to

The names in the code of a program are those of slots of its table. A word of the table is declared
once in the header, the head of a struct is not. So a name is without a declaration only where the
struct of that name starts at a scratch place.
-/

namespace Flatword

/-! ## Names of the table -/

theorem Instr.refers_of_isControl {instr : Instr} (h : instr.isControl = true) :
    instr.names = [] ∧ instr.immediates = [] := by
  cases instr <;> simp_all [isControl, names, immediates]

theorem Code.count_declare (code : Code) (name : String) :
    code.count (.declare name) = (code.filterMap Instr.declared?).count name := by
  induction code with
  | nil => rfl
  | cons instr code ih =>
    rw [List.count_cons, ih, List.filterMap_cons]
    cases instr <;> simp [Instr.declared?, List.count_cons]

theorem Table.exists_of_bare {t u : Table} (h : t.bare = u.bare) {x : Slot} (hx : x ∈ t.slots) :
    ∃ y ∈ u.slots, y.asmName = x.asmName ∧ y.kind = x.kind ∧ y.address = x.address := by
  have hslots : t.slots.map Slot.bare = u.slots.map Slot.bare := congrArg Table.slots h
  have hmem : x.bare ∈ u.slots.map Slot.bare := hslots ▸ List.mem_map_of_mem hx
  obtain ⟨y, hy, heq⟩ := List.mem_map.mp hmem
  have hname := congrArg Slot.asmName heq
  have hkind := congrArg Slot.kind heq
  have ha := congrArg Slot.address heq
  exact ⟨y, hy, hname, hkind, ha⟩

namespace Compilation

variable {program : Program} {c : Compiled}

theorem ready_emitted (r : Compilation program c) : r.emitted.Ready :=
  (((Session.Reached.start r.start_eq).build r.build_eq).emit r.leads_emitted).ready

theorem count_declare_eq_one (r : Compilation program c) {slot : Slot} (hslot : slot ∈ c.table.slots)
    (hkind : slot.kind ≠ .struct) : c.assembly.header.count (.declare slot.asmName) = 1 := by
  have hnames : (c.table.slots.map Slot.asmName).Nodup := r.table_eq ▸ r.laid_final.layout.names
  have hwords : ((wordSlots c.table.slots).map Slot.asmName).Nodup :=
    hnames.sublist (List.filter_sublist.map _)
  rw [Code.count_declare, r.declared_eq]
  refine List.count_eq_one_of_mem hwords (List.mem_map_of_mem ?_)
  exact List.mem_filter.mpr ⟨hslot, by simpa using hkind⟩

end Compilation

/-- An instruction of a compiled program names words that are declared once, or a struct at a
scratch place of the sentence that the instruction belongs to. Words are written out in full. -/
theorem names_declared_unless_scratch {options : Options} {program : Program} {c : Compiled}
    (h : compile options program = .ok c) :
    ∃ (r : Compilation program c) (ps : List Passage), program.Lowers r.built ps r.final ∧
      Code.MadeOf (c.assembly.main ++ c.assembly.functions.flatMap Assembly.functionCode) ps ∧
      ∀ instr ∈ c.assembly.code,
        (∀ name ∈ instr.names, c.assembly.header.count (.declare name) = 1 ∨
          ∃ p ∈ ps, instr ∈ p.code ∧ ∃ slot ∈ c.table.slots, slot.asmName = name ∧
            slot.kind = .struct ∧ p.after.isTemp slot = true) ∧
        ∀ hex ∈ instr.immediates, hex.length = 16 ∧
          ∀ d ∈ hex.toList, d ∈ "0123456789abcdef".toList := by
  obtain ⟨r⟩ := exists_compilation h
  obtain ⟨ps, hps, hcode⟩ := r.makes_main.append r.makes_functions
  have hword {hex : String} (hhex : ∃ w : Word, hex = Hex.ofWord w) :
      hex.length = 16 ∧ ∀ d ∈ hex.toList, d ∈ "0123456789abcdef".toList := by
    obtain ⟨w, rfl⟩ := hhex
    exact ⟨Hex.length_ofWord w, fun d => Hex.mem_alphabet_of_mem_ofWord⟩
  refine ⟨r, ps, hps, hcode, fun instr hinstr => ?_⟩
  rw [Assembly.code, List.append_assoc, List.mem_append] at hinstr
  rcases hinstr with hinstr | hinstr
  · -- the header sets words that have a value from the start
    rw [r.header_eq] at hinstr
    rcases Session.mem_header hinstr with ⟨name, rfl⟩ | ⟨name, hex, rfl⟩
    · simp [Instr.names, Instr.immediates]
    · obtain ⟨slot, hslot, rfl, hcontent⟩ := Session.const_header hinstr
      obtain ⟨hkind, hhex⟩ := r.ready_emitted.written slot hslot hex hcontent
      obtain ⟨y, hy, hname, hykind, -⟩ := Table.exists_of_bare r.leads_final.bare.symm hslot
      have hone := r.count_declare_eq_one (r.table_eq ▸ hy) (hykind.trans_ne hkind)
      rw [hname] at hone
      refine ⟨fun name hnamed => .inl ?_, fun text htext => ?_⟩
      · obtain rfl : name = slot.asmName := by
          simpa [Instr.names, Instr.setImmediate, Dest.names, Src.names] using hnamed
        exact hone
      · obtain rfl : text = hex := by
          simpa [Instr.immediates, Instr.setImmediate] using htext
        exact hword hhex
  · rcases hcode.control instr hinstr with hmem | hcontrol
    · obtain ⟨p, hp, hmem⟩ := List.mem_flatMap.mp hmem
      have hrefers := (Clause.done (hps.fit r.fit_built p hp).fair p.gives).refers instr hmem
      refine ⟨fun name hname => ?_, fun hex hhex => hword (hrefers.immediates hex hhex)⟩
      obtain ⟨y, hy, rfl, hkind⟩ := hrefers.names name hname
      obtain ⟨x, hx, rfl⟩ := List.mem_map.mp hy
      have hbare : p.after.session.table.bare = r.final.table.bare := by
        rw [p.bare, hps.bare.2 p hp, hps.bare.1]
      obtain ⟨slot, hslot, hsname, hskind, hsa⟩ := Table.exists_of_bare hbare hx
      rw [← r.table_eq] at hslot
      by_cases hstruct : slot.kind = .struct
      · refine .inr ⟨p, hp, hmem, slot, hslot, hsname, hstruct, ?_⟩
        have htemp := hkind.resolve_left (not_not.mpr (hskind.symm.trans hstruct))
        unfold Scope.isTemp at htemp ⊢
        rw [hsa]
        exact htemp
      · refine .inl ?_
        have hone := r.count_declare_eq_one hslot hstruct
        rwa [hsname] at hone
    · obtain ⟨hnames, himmediates⟩ := Instr.refers_of_isControl hcontrol
      simp [hnames, himmediates]

/-- `struct S { long m; }; struct S s; long *p, a, b; s_m = a * b + p[s + 1];` -/
def structAsIndex : Program where
  main := [
    .structDefinition "S" [.keyword "long" 1, .ident "m" 1] 1,
    .declaration [.struct "S" 1, .ident "s" 1],
    .declaration [.keyword "long" 1, .star 1, .ident "p" 1, .comma 1, .ident "a" 1, .comma 1,
      .ident "b" 1],
    .expression (.assign none (.var "s_m" 1) (.binary .add
      (.binary .mul (.var "a" 1) (.var "b" 1) 1)
      (.lookup "p" [.index (.binary .add (.var "s" 1) (.long 1 1) 1)] 1) 1) 1)]

/-- The target `s_m` is handed out as scratch place, and so its struct counts as one: the code
increments `s`, which no line declares. -/
theorem structAsIndex_undeclared :
    ∃ c, compile {} structAsIndex = .ok c ∧ .inc "s" ∈ c.assembly.main ∧
      c.assembly.header.count (.declare "s") = 0 ∧
      ∃ (r : Compilation structAsIndex c) (ps : List Passage),
        structAsIndex.Lowers r.built ps r.final ∧
        ∃ p ∈ ps, .inc "s" ∈ p.code ∧ ∃ slot ∈ c.table.slots, slot.asmName = "s" ∧
          slot.kind = .struct ∧ p.after.isTemp slot = true := by
  have hcompiled : ((compile {} structAsIndex).toOption.any fun c =>
      .inc "s" ∈ c.assembly.main ∧ c.assembly.header.count (.declare "s") = 0) = true := by
    decide +kernel
  obtain ⟨c, hc, hcompiled⟩ := (Option.any_eq_true _ _).mp hcompiled
  obtain ⟨hinc, hcount⟩ := of_decide_eq_true hcompiled
  have hc := eq_ok_of_toOption hc
  obtain ⟨r, ps, hps, -, hnames⟩ := names_declared_unless_scratch hc
  have hmem : .inc "s" ∈ c.assembly.code := by simp [Assembly.code, hinc]
  rcases (hnames _ hmem).1 "s" (by simp [Instr.names]) with hone | hscratch
  · simp [hcount] at hone
  · exact ⟨c, hc, hinc, hcount, r, ps, hps, hscratch⟩

end Flatword
