import Flatword.Proofs.Layout
import Flatword.Proofs.Operand

/-!
# The scope of a new statement

In a session whose table is sound, a statement starts with all registers free, and every machine
that has the words of the table where the table has them can run its code.
-/

namespace Flatword

variable {s : Session} {t : Table}

theorem Table.Sound.eq_of_address (h : t.Sound) {x y : Slot} (hx : x ∈ t.slots) (hy : y ∈ t.slots)
    (hkx : x.kind ≠ .struct) (hky : y.kind ≠ .struct) (ha : x.address = y.address) : x = y :=
  List.inj_on_of_nodup_map h.distinct (List.mem_filter.mpr ⟨hx, by simpa using hkx⟩)
    (List.mem_filter.mpr ⟨hy, by simpa using hky⟩) ha

theorem Table.Sound.kind_of_mem_registers (h : t.Sound) {r : Slot} (hr : r ∈ t.registers) :
    r ∈ t.slots ∧ r.kind = .register := by
  obtain ⟨hr, hname⟩ := List.mem_filter.mp hr
  exact ⟨hr, (h.fits r hr).register.mpr hname⟩

theorem Scope.registers_start (s : Session) :
    (Scope.start s).ground.registers = s.table.registers := by
  simp only [Scope.start, Scope.ground, Pool.slots, Pool.ofSlots, List.map_map]
  exact List.map_id _

theorem Scope.regular_start (h : s.table.Sound) : (Scope.start s).Regular where
  target := by simp [Scope.start, Reuse.target?]
  ground := by
    constructor
    · intro r hr
      rw [Scope.registers_start] at hr
      obtain ⟨hr, hk⟩ := h.kind_of_mem_registers hr
      simp [Slot.isPlain, hk, Kind.isRegular, (h.fits r hr).offset]
    · intro r hr
      rw [Scope.registers_start] at hr
      obtain ⟨a, ha, -⟩ := h.placed r (h.kind_of_mem_registers hr).1
      simp [ha]
    · rw [Scope.registers_start]
      refine (List.Sublist.map _ ?_).nodup h.distinct
      have hregisters : s.table.registers =
          (s.table.slots.filter (·.kind ≠ .struct)).filter (isRegisterName ·.asmName) := by
        rw [Table.registers, List.filter_filter]
        refine List.filter_congr fun r hr => ?_
        have hk := (h.fits r hr).register
        cases hname : isRegisterName r.asmName <;> simp_all
      exact hregisters ▸ List.filter_sublist
    · intro slot hslot
      obtain ⟨x, hx, rfl⟩ := List.mem_map.mp hslot
      refine ⟨fun hk hmem => ?_, fun hk => absurd hk (h.fits x hx).constant⟩
      have hk : x.kind = .array := hk
      rw [Scope.registers_start] at hmem
      obtain ⟨r, hr, ha⟩ := List.mem_map.mp hmem
      obtain ⟨hr, hkr⟩ := h.kind_of_mem_registers hr
      have heq := h.eq_of_address hr hx (by simp [hkr]) (by simp [hk]) ha
      simp [heq, hk] at hkr

theorem Scope.not_busy_start (s : Session) (a : Nat) : ¬ (Scope.start s).pool.Busy a := by
  rintro ⟨r, hr, hin, -⟩
  obtain ⟨slot, -, rfl⟩ := List.mem_map.mp hr
  simp at hin

theorem Scope.workspace_start (s : Session) :
    (Scope.start s).workspace = (Scope.start s).registers := by
  ext a
  simp [Scope.workspace, Scope.start]

/-- A machine has the words of a table where the table has them. -/
def Machine.Has (m : Machine) (t : Table) : Prop :=
  ∀ slot ∈ t.slots, slot.kind ≠ .struct → m.place slot.asmName = slot.address

theorem Scope.ready_start {m : Machine} (h : s.table.Sound) (hm : m.Has s.table)
    (hcontent : ∀ slot ∈ s.table.slots, slot.content ≠ none → slot.kind ≠ .struct) :
    (Scope.start s).Ready m := by
  have hat {slot : Slot} (hslot : slot ∈ s.table.slots) (hk : slot.kind ≠ .struct) :
      ∃ a, slot.IsAt m a := by
    obtain ⟨a, ha, -⟩ := h.placed slot hslot
    exact ⟨a, ha, (hm slot hslot hk).trans ha⟩
  refine ⟨Scope.regular_start h, ?_, ?_, by simp [Scope.start, Reuse.target?], ?_⟩
  · intro slot hslot hk
    obtain ⟨x, hx, rfl⟩ := List.mem_map.mp hslot
    obtain ⟨a, ha⟩ := hat hx hk
    exact ⟨(h.fits x hx).offset, a, ha⟩
  · intro r hr
    rw [Scope.registers_start] at hr
    obtain ⟨hr, hk⟩ := h.kind_of_mem_registers hr
    exact hat hr (by simp [hk])
  · intro slot w hnames
    obtain ⟨x, hx, rfl⟩ := List.mem_map.mp hnames.mem
    have hk : x.kind ≠ .struct := hcontent x hx (by simp [show x.content = _ from hnames.content])
    obtain ⟨a, ha⟩ := hat hx hk
    refine ⟨a, ha, ?_⟩
    rintro (hregister | ⟨target, hr, -⟩)
    · -- a register would have the name of a register, and not that of a constant
      have hregister : some a ∈ (Scope.start s).ground.registers.map Slot.address := hregister
      rw [Scope.registers_start] at hregister
      obtain ⟨r, hr, hra⟩ := List.mem_map.mp hregister
      obtain ⟨hr', hkr⟩ := h.kind_of_mem_registers hr
      have heq := h.eq_of_address hr' hx (by simp [hkr]) hk (hra.trans ha.1.symm)
      have hname := (h.fits x hx).register.mp (heq ▸ hkr)
      rcases hnames.name with hn | hn <;>
        · have hn : x.asmName = _ := hn
          simp [hn, isRegisterName, toString] at hname
    · simp [Scope.start, Reuse.target?] at hr

/-- The machine with the words of a table, which reaches every address. -/
def Table.machine (t : Table) (alu : Alu) : Machine where
  alu
  place name := (t.findAsm? name).bind Slot.address
  guard _ := true
  callee _ s := s

theorem Table.has_machine (h : (t.slots.map Slot.asmName).Nodup) (alu : Alu) :
    (t.machine alu).Has t := by
  intro slot hslot _
  have hfound : (t.findAsm? slot.asmName).isSome = true := by
    by_contra hnone
    exact findAsm?_eq_none.mp (by simpa using hnone) (List.mem_map_of_mem hslot)
  obtain ⟨x, hx⟩ := Option.isSome_iff_exists.mp hfound
  have hname := List.find?_some hx
  have heq := List.inj_on_of_nodup_map h (List.mem_of_find?_eq_some hx) hslot (of_decide_eq_true hname)
  simp [Table.machine, hx, heq]

theorem Table.Sound.has_machine (h : t.Sound) (alu : Alu) : (t.machine alu).Has t :=
  Table.has_machine h.names alu

theorem Scope.not_names_start {s : Session} (h : ∀ slot ∈ s.table.slots, slot.content = none)
    {slot : Slot} {w : Word} : ¬ (Scope.start s).ground.Names slot w := by
  intro hnames
  obtain ⟨x, hx, rfl⟩ := List.mem_map.mp hnames.mem
  have hcontent := hnames.content
  simp [Slot.unmarked, h x hx] at hcontent

/-- No array is taken for a constant whose name does not begin like that of one. -/
theorem Scope.holdIn_start {s : Session} (name : String)
    (hname : name.toList.head? ≠ some 'n' ∧ name.toList.head? ≠ some 'f')
    (h : ∀ x ∈ s.table.slots, x.content = none ∨ x.asmName = name) (μ : Memory) :
    (Scope.start s).ground.HoldIn μ := by
  intro slot w b hnames _
  obtain ⟨x, hx, rfl⟩ := List.mem_map.mp hnames.mem
  have hx : x.asmName = name := (h x hx).resolve_left (by simp [show x.content = _ from hnames.content])
  have hnumbered : x.asmName = "n" ++ toString w ∨ x.asmName = "f" ++ toString w := hnames.name
  rcases hnumbered with heq | heq <;> (rw [← hx, heq] at hname; simp at hname)

def Session.ofWords (names : List String) : Session where
  options := {}
  table := (Table.append {} (Session.registerSlots 3 ++
    names.map fun name => { name, asmName := name, kind := .long, type := .long })).1

theorem Session.sound_append_registerSlots {slots : List Slot} (h : ∀ slot ∈ slots, slot.Fits) :
    (Table.append {} (registerSlots 3 ++ slots)).1.Sound :=
  Table.sound_empty.append (List.forall_mem_append.mpr ⟨fits_registerSlots (by decide), h⟩)

theorem Session.sound_ofWords (names : List String)
    (h : ∀ name ∈ names, isRegisterName name = false) :
    (Session.ofWords names).table.Sound := by
  refine sound_append_registerSlots fun slot hslot => ?_
  obtain ⟨name, hname, rfl⟩ := List.mem_map.mp hslot
  exact ⟨nofun, nofun, rfl, by simp [h name hname]⟩

theorem Session.content_ofWords (names : List String) :
    ∀ slot ∈ (Session.ofWords names).table.slots, slot.content = none := by
  refine Table.forall_append (by simp) fun slot hslot a => ?_
  rcases List.mem_append.mp hslot with hslot | hslot <;>
    · obtain ⟨_, -, rfl⟩ := List.mem_map.mp hslot
      rfl

end Flatword
