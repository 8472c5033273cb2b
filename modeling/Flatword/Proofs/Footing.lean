import Flatword.Proofs.Fair
import Flatword.Proofs.Operand

/-!
# The scopes of reached sessions

In every session that definitions and code lead to, the words of the table have addresses of their own. So
a machine that has them there suits every scope of the session, as long as all registers of the pool are
words.
-/

namespace Flatword

variable {t : Table} {x : Slot}

theorem Table.LaidOut.eq_of_address (h : t.LaidOut) {x y : Slot} (hx : x ∈ t.slots) (hy : y ∈ t.slots)
    (hkx : x.kind ≠ .struct) (hky : y.kind ≠ .struct) (ha : x.address = y.address) : x = y := by
  obtain ⟨i, hi, rfl⟩ := List.getElem_of_mem hx
  obtain ⟨j, hj, rfl⟩ := List.getElem_of_mem hy
  rw [h.address_getElem hi, h.address_getElem hj, Option.some.injEq] at ha
  have hij : i = j :=
    word_unique (by simpa using hi) (by simpa using hj) (by simpa using hkx) (by simpa using hky) ha
  simp only [hij]

theorem Table.LaidOut.exists_address (h : t.LaidOut) (hx : x ∈ t.slots) : ∃ a, x.address = some a := by
  obtain ⟨i, hi, rfl⟩ := List.getElem_of_mem hx
  exact ⟨_, h.address_getElem hi⟩

theorem Table.LaidOut.nodup_addresses (h : t.LaidOut) :
    ((t.slots.filter (·.kind ≠ .struct)).map Slot.address).Nodup := by
  have hslots : t.slots.Nodup := h.names.of_map
  refine (List.nodup_map_iff_inj_on (hslots.filter _)).mpr fun x hx y hy ha => ?_
  obtain ⟨hx, hkx⟩ := List.mem_filter.mp hx
  obtain ⟨hy, hky⟩ := List.mem_filter.mp hy
  exact h.eq_of_address hx hy (by simpa using hkx) (by simpa using hky) ha

namespace Session

variable {options : Options} {defined : List (Place × Definition)} {s : Session}

theorem Reached.stored (h : Reached options defined s) :
    ∀ x ∈ s.table.slots, x.kind ≠ .constant ∧ x.offset = none := by
  induction h with
  | start h =>
    intro x hx
    have hfits := (sound_start h).table.fits x hx
    exact ⟨hfits.constant, hfits.offset⟩
  | sign _ functions ih => exact ih
  | emit _ hleads ih =>
    intro x hx
    have hslots := congrArg Table.slots hleads.bare
    have hmem : x.bare ∈ _ := List.mem_map_of_mem hx
    rw [show List.map Slot.bare _ = _ from hslots] at hmem
    obtain ⟨y, hy, hyx⟩ := List.mem_map.mp hmem
    have hkind := congrArg Slot.kind hyx
    have hoffset := congrArg Slot.offset hyx
    obtain ⟨hconstant, hnone⟩ := ih y hy
    exact ⟨fun hk => hconstant (hkind.trans hk), hoffset.symm.trans hnone⟩
  | @define defined s h place hplace definition ih =>
    rcases definition with tokens | ⟨name, members, line⟩
    · have hdeclared :=
        (keeps_walkPhrase { place } .idle false false "" tokens s.catalog h.fronted.catalog).2
      obtain ⟨slots, hslots, heq⟩ := declare_adds place tokens s
      rw [define_variables, heq]
      refine Table.forall_append ih fun x hx a => ?_
      have hdeclarable := (hslots _ hdeclared x hx).1
      exact ⟨hdeclarable.constant, hdeclarable.offset⟩
    · rw [Session.define, result_liftLayout]
      exact ih

variable {m : Machine}

theorem Reached.regular (h : Reached options defined s)
    (hwords : ∀ r ∈ s.table.registers, r.kind.isRegular = true) : (Scope.start s).ground.Regular := by
  have hlayout := h.fronted.table.layout
  have hmem {r : Slot} (hr : r ∈ s.table.registers) : r ∈ s.table.slots ∧ r.kind ≠ .struct := by
    refine ⟨(List.mem_filter.mp hr).1, fun hk => ?_⟩
    have hword := hwords r hr
    simp [hk, Kind.isRegular] at hword
  constructor <;> try rw [Scope.registers_start]
  · intro r hr
    simp [Slot.isPlain, hwords r hr, (h.stored r (hmem hr).1).2]
  · intro r hr
    obtain ⟨a, ha⟩ := hlayout.exists_address (hmem hr).1
    simp [ha]
  · refine (List.Sublist.map _ ?_).nodup hlayout.nodup_addresses
    have hregisters : s.table.registers =
        (s.table.slots.filter (·.kind ≠ .struct)).filter (isRegisterName ·.asmName) := by
      rw [Table.registers, List.filter_filter]
      refine List.filter_congr fun r hr => ?_
      by_cases hname : isRegisterName r.asmName = true
      · simp [hname, (hmem (List.mem_filter.mpr ⟨hr, hname⟩)).2]
      · simp [hname]
    exact hregisters ▸ List.filter_sublist
  · intro slot hslot
    obtain ⟨x, hx, rfl⟩ := List.mem_map.mp hslot
    refine ⟨fun hk hregister => ?_, fun hk => absurd hk (h.stored x hx).1⟩
    have hk : x.kind = .array := hk
    rw [Scope.registers_start] at hregister
    obtain ⟨r, hr, ha⟩ := List.mem_map.mp hregister
    have hrx := hlayout.eq_of_address (hmem hr).1 hx (hmem hr).2 (by simp [hk]) ha
    have hword := hwords r hr
    simp [hrx, hk, Kind.isRegular] at hword

/-- A machine that has the words of a session suits every scope of a statement that has no target to
hand out. -/
theorem Reached.placed (h : Reached options defined s)
    (hwords : ∀ r ∈ s.table.registers, r.kind.isRegular = true) (hm : m.Has s.table) {u : Scope}
    (hu : (Scope.start s).Leads u) (hreuse : ∀ target, u.reuse ≠ .reserved target) : u.Placed m := by
  have hlayout := h.fronted.table.layout
  have hregular := h.regular hwords
  have hground := hu.ground
  have hregisters : u.ground.registers = s.table.registers := by rw [hground, Scope.registers_start]
  have hisAt {x : Slot} (hx : x ∈ s.table.slots) (hk : x.kind ≠ .struct) : ∃ a, x.IsAt m a := by
    obtain ⟨a, ha⟩ := hlayout.exists_address hx
    exact ⟨a, ha, (hm x hx hk).trans ha⟩
  have hstruct {r : Slot} (hr : r ∈ s.table.registers) : r.kind ≠ .struct := by
    intro hk
    have hword := hwords r hr
    simp [hk, Kind.isRegular] at hword
  refine ⟨hu.regular ⟨hregular, by simp [Scope.start, Reuse.target?]⟩, ?_, ?_,
    fun hr => absurd hr (hreuse _), ?_⟩
  · rw [hground]
    intro slot hslot hk
    obtain ⟨x, hx, rfl⟩ := List.mem_map.mp hslot
    obtain ⟨a, ha⟩ := hisAt hx hk
    exact ⟨(h.stored x hx).2, a, ha⟩
  · rw [hregisters]
    exact fun r hr => hisAt (List.mem_filter.mp hr).1 (hstruct hr)
  · intro slot w hnames
    rw [hground] at hnames
    obtain ⟨x, hx, rfl⟩ := List.mem_map.mp hnames.mem
    have hk : x.kind ≠ .struct := (h.ready.written x hx _ hnames.content).1
    obtain ⟨a, ha⟩ := hisAt hx hk
    refine ⟨a, ha, ?_⟩
    rintro (hregister | ⟨target, hr, -⟩)
    · -- A register at the address of a constant would be that constant, and be called a register.
      rw [Scope.registers, hregisters] at hregister
      obtain ⟨r, hr, hra⟩ := List.mem_map.mp hregister
      obtain ⟨hmem, hname⟩ := List.mem_filter.mp hr
      have hrx := hlayout.eq_of_address hmem hx (hstruct hr) hk (hra.trans ha.1.symm)
      rcases hnames.name with hn | hn <;>
        · have hn : x.asmName = _ := hn
          simp [hrx, hn, isRegisterName, toString] at hname
    · exact hreuse target hr

end Session

end Flatword
