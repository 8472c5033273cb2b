import Flatword.Proofs.Header

/-!
# The pool of scratch registers

The pool of a scope has all slots of the table that are called `r0` to `r9`, lowest address first: the
registers that the options ask for, and after them every global that a program has declared under such a
name.
-/

namespace Flatword

theorem isRegisterName_iff {name : String} :
    isRegisterName name = true ↔ ∃ d < 10, name = s!"r{d}" := by
  have hdigit : ∀ d < 10, String.ofList ['r', Char.ofNat (48 + d)] = s!"r{d}" := by decide
  constructor
  · intro h
    unfold isRegisterName at h
    split at h
    · next c hname =>
      simp only [Bool.and_eq_true, decide_eq_true_eq] at h
      have hlow : 48 ≤ c.toNat := h.1
      have hhigh : c.toNat ≤ 57 := h.2
      refine ⟨c.toNat - 48, by omega, ?_⟩
      rw [← hdigit _ (by omega), Nat.add_sub_of_le hlow, Char.ofNat_toNat, ← hname,
        String.ofList_toList]
    · simp at h
  · rintro ⟨d, hd, rfl⟩
    revert d
    decide

/-! ## Tables that open with given slots -/

namespace Table

theorem append_empty_eq_none {slots : List Slot} (h : (slots.map Slot.asmName).Nodup) :
    (append {} slots).2 = none := by
  rw [append_eq_none_iff]
  rintro i ⟨hi, hold | hbefore⟩
  · simp at hold
  · obtain ⟨j, hj, heq⟩ := List.getElem_of_mem hbefore
    rw [List.length_map, List.length_take] at hj
    have hi' : i < (slots.map Slot.asmName).length := by simpa using hi
    have hj' : j < (slots.map Slot.asmName).length := by omega
    have hij : (slots.map Slot.asmName)[j] = (slots.map Slot.asmName)[i] := by simpa using heq
    rw [h.getElem_inj_iff] at hij
    omega

theorem placedFrom_append (first : Nat) (front later : List Slot) :
    placedFrom first (front ++ later) =
      placedFrom first front ++ placedFrom (first + wordCount (front.map Slot.kind)) later := by
  induction front generalizing first with
  | nil => rfl
  | cons s front ih => simp [placedFrom, ih, Nat.add_assoc]

theorem exists_of_mem_placedFrom {first : Nat} {slots : List Slot} {x : Slot}
    (h : x ∈ placedFrom first slots) : ∃ s ∈ slots, ∃ a, x = placed s a := by
  rw [placedFrom_eq_mapIdx, List.mem_mapIdx] at h
  obtain ⟨i, hi, rfl⟩ := h
  exact ⟨slots[i], List.getElem_mem hi, _, rfl⟩

end Table

/-- A table that opens with these slots, where all later slots have a property. -/
structure Table.Opens (front : List Slot) (Q : Slot → Prop) (t : Table) : Prop where
  layout : t.LaidOut
  split : ∃ later, t.slots = front ++ later ∧ ∀ x ∈ later, Q x

namespace Table.Opens

variable {front : List Slot} {Q : Slot → Prop} {t : Table}

theorem mono {R : Slot → Prop} (h : t.Opens front Q) (hQ : ∀ x, Q x → R x) : t.Opens front R := by
  obtain ⟨later, heq, hlater⟩ := h.split
  exact ⟨h.layout, later, heq, fun x hx => hQ x (hlater x hx)⟩

theorem append (h : t.Opens front Q) {slots : List Slot} (hs : ∀ s ∈ slots, ∀ a, Q (placed s a)) :
    (t.append slots).1.Opens front Q := by
  refine ⟨h.layout.append slots, ?_⟩
  have hsplit := h.split
  clear h
  fun_induction Table.append t slots with
  | case1 => exact hsplit
  | case2 => exact hsplit
  | case3 t s rest hfree ih =>
    refine ih (fun x hx => hs x (by simp [hx])) ?_
    obtain ⟨later, heq, hlater⟩ := hsplit
    refine ⟨later ++ [placed s t.next], by rw [Table.push, heq, List.append_assoc], ?_⟩
    intro x hx
    rcases List.mem_append.mp hx with hx | hx
    · exact hlater x hx
    · rw [List.mem_singleton.mp hx]
      exact hs s (by simp) t.next

theorem split_updateAsm {change : Slot → Slot} {asmName : String}
    (hfront : ∀ x ∈ front, x.asmName = asmName → change x = x) (hQ : ∀ x, Q x → Q (change x))
    (h : t.Opens front Q) :
    ∃ later, (t.updateAsm asmName change).slots = front ++ later ∧ ∀ x ∈ later, Q x := by
  obtain ⟨later, heq, hlater⟩ := h.split
  have hgo (slots : List Slot) (hslots : ∀ x ∈ slots, Q x) :
      ∀ x ∈ updateAsm.go asmName change slots, Q x := by
    fun_induction updateAsm.go asmName change slots <;> simp_all
  rw [updateAsm, heq]
  clear h heq
  induction front with
  | nil => exact ⟨_, rfl, hgo later hlater⟩
  | cons s front ih =>
    rw [List.cons_append, updateAsm.go]
    by_cases hname : s.asmName = asmName
    · rw [if_pos hname, hfront s (by simp) hname]
      exact ⟨later, rfl, hlater⟩
    · obtain ⟨later', heq, hlater'⟩ := ih fun x hx => hfront x (by simp [hx])
      exact ⟨later', by simp only [if_neg hname, List.cons_append, List.cons.injEq, true_and]; exact heq,
        hlater'⟩

end Table.Opens

/-! ## The registers in front -/

namespace Session

/-- The registers that the options ask for, as they stand in every table. -/
def configured (count : Nat) : List Slot :=
  Table.placedFrom 0 (registerSlots count)

theorem exists_of_mem_configured {count : Nat} {x : Slot} (hx : x ∈ configured count) :
    ∃ i < count, ∃ a, x = Table.placed
      { name := s!"r{i}", asmName := s!"r{i}", kind := .register, type := .long, isSet := true,
        isDeclared := true } a := by
  obtain ⟨s, hs, a, rfl⟩ := Table.exists_of_mem_placedFrom hx
  obtain ⟨i, hi, rfl⟩ := List.mem_map.mp hs
  exact ⟨i, List.mem_range.mp hi, a, rfl⟩

theorem length_configured (count : Nat) : (configured count).length = count := by
  simp [configured, Table.placedFrom_eq_mapIdx, registerSlots]

theorem exists_configured {count d : Nat} (hd : d < count) :
    ∃ x ∈ configured count, x.asmName = s!"r{d}" := by
  rw [configured, Table.placedFrom_eq_mapIdx]
  refine ⟨_, List.mem_mapIdx.mpr ⟨d, by simpa [registerSlots] using hd, rfl⟩, ?_⟩
  simp [registerSlots, Table.placed]

end Session

/-- A slot that is no register of the options, and that has the name of a register only where the
program gives it one. -/
def Slot.AddedBy (origin : String → Prop) (x : Slot) : Prop :=
  x.kind ≠ .register ∧ (isRegisterName x.asmName = true → origin x.asmName)

namespace Table

variable {count : Nat} {origin : String → Prop} {t : Table}

def Registers (count : Nat) (origin : String → Prop) (t : Table) : Prop :=
  t.Opens (Session.configured count) (Slot.AddedBy origin)

namespace Registers

theorem markSet (h : t.Registers count origin) (asmName : String) :
    (t.markSet asmName).Registers count origin := by
  refine ⟨h.layout.markSet asmName, Opens.split_updateAsm (fun x hx _ => ?_) (fun _ hx => hx) h⟩
  obtain ⟨i, -, a, rfl⟩ := Session.exists_of_mem_configured hx
  rfl

theorem markDeclared (h : t.Registers count origin) (asmName : String) :
    (t.markDeclared asmName).Registers count origin := by
  refine ⟨h.layout.markDeclared asmName,
    Opens.split_updateAsm (fun x hx _ => ?_) (fun _ hx => hx) h⟩
  obtain ⟨i, -, a, rfl⟩ := Session.exists_of_mem_configured hx
  rfl

theorem name_ne (h : t.Registers count origin) {slot x : Slot} (hslot : slot ∈ t.slots)
    (hkind : slot.kind ≠ .register) (hx : x ∈ Session.configured count) :
    x.asmName ≠ slot.asmName := by
  intro hname
  obtain ⟨later, heq, -⟩ := h.split
  have hmem : x ∈ t.slots := by rw [heq]; exact List.mem_append_left later hx
  obtain rfl : x = slot := List.inj_on_of_nodup_map h.layout.names hmem hslot hname
  obtain ⟨i, -, a, rfl⟩ := Session.exists_of_mem_configured hx
  exact hkind rfl

theorem addedBy (h : t.Registers count origin) {slot : Slot} (hslot : slot ∈ t.slots)
    (hkind : slot.kind ≠ .register) : Slot.AddedBy origin slot := by
  obtain ⟨later, heq, hlater⟩ := h.split
  rw [heq] at hslot
  rcases List.mem_append.mp hslot with hfront | hslot
  · obtain ⟨i, -, a, rfl⟩ := Session.exists_of_mem_configured hfront
    exact absurd rfl hkind
  · exact hlater slot hslot

theorem setContent (h : t.Registers count origin) {slot : Slot} (hslot : slot ∈ t.slots)
    (hkind : slot.kind ≠ .register) (hex : String) :
    (t.setContent slot.asmName hex).Registers count origin :=
  ⟨h.layout.setContent slot.asmName hex, Opens.split_updateAsm
    (fun _ hx hname => absurd hname (h.name_ne hslot hkind hx)) (fun _ hx => hx) h⟩

theorem registers_eq (h : t.Registers count origin) (hcount : count ≤ 10) :
    t.registers = Session.configured count ++
      t.slots.filter fun x => x.kind ≠ .register && isRegisterName x.asmName := by
  obtain ⟨later, heq, hlater⟩ := h.split
  have hfront : ∀ x ∈ Session.configured count,
      x.kind = .register ∧ isRegisterName x.asmName = true := by
    intro x hx
    obtain ⟨i, hi, a, rfl⟩ := Session.exists_of_mem_configured hx
    exact ⟨rfl, isRegisterName_iff.mpr ⟨i, by omega, rfl⟩⟩
  have hsame : later.filter (fun x => isRegisterName x.asmName) =
      later.filter fun x => x.kind ≠ .register && isRegisterName x.asmName := by
    apply List.filter_congr
    intro x hx
    simp [(hlater x hx).1]
  have hnone : (Session.configured count).filter
      (fun x => x.kind ≠ .register && isRegisterName x.asmName) = [] := by
    rw [List.filter_eq_nil_iff]
    intro x hx
    simp [(hfront x hx).1]
  rw [registers, heq, List.filter_append, List.filter_append, hnone, List.nil_append, hsame,
    List.filter_eq_self.mpr fun x hx => (hfront x hx).2]

end Registers

end Table

/-! ## Code keeps the registers in front -/

namespace Lower

variable {α β : Type}

/-- A step that keeps a property of its scope, whether it fails or not. -/
class Upholds (P : Scope → Prop) (m : Lower α) : Prop where
  upholds : ∀ f s, P s → P (outcome m f s).2

instance {P : Scope → Prop} (m : Lower α) (k : α → Lower β) [Upholds P m] [∀ a, Upholds P (k a)] :
    Upholds P (m >>= k) where
  upholds f s hs := by
    have hm := Upholds.upholds (m := m) f s hs
    rw [outcome_bind]
    rcases h : outcome m f s with ⟨_ | a, t⟩ <;> rw [h] at hm
    · exact hm
    · exact Upholds.upholds f t hm

theorem Orderly.upholds {P : Scope → Prop} (hP : ∀ {s t : Scope}, s.Move t → P s → P t)
    (m : Lower α) [Orderly m] : Upholds P m where
  upholds f s hs := (Orderly.leads (m := m) f s).preserves hP hs

theorem Sentence.upholds {P : Scope → Prop} (hmove : ∀ {s t : Scope}, s.Move t → P s → P t)
    (hpost : ∀ {s : Scope}, P s → P { s with post := [] })
    (hrecord : ∀ {s : Scope} {slot : Slot} (value : Word), P s → slot ∈ s.session.table.slots →
      slot.kind = .long ∨ slot.kind = .fixed → P { s with session := { s.session with
        table := s.session.table.setContent slot.asmName (Hex.ofWord value) } })
    {k : Lower Code} (hk : Sentence k) (f : Frame) {s : Scope} (hs : P s) :
    P (outcome k f s).2 := by
  have {α : Type} (m : Lower α) [Orderly m] : Upholds P m := Orderly.upholds hmove m
  have : Upholds P (get : Lower Scope) := ⟨fun _ _ hs => hs⟩
  have : Upholds P allowReuse := ⟨fun _ s hs => hmove (.allow s) hs⟩
  have : Upholds P takePost := ⟨fun _ _ => hpost⟩
  cases hk with
  | effect e => unfold Lower.effect; exact Upholds.upholds f s hs
  | condition e b => unfold Lower.condition; exact Upholds.upholds f s hs
  | returnValue e => unfold Lower.returnValue; exact Upholds.upholds f s hs
  | constEffect e =>
    rw [Lower.constEffect, outcome_bind]
    cases hvalue : constValue? e with
    | none => exact hs
    | some w =>
      rw [orFail, outcome_pure]
      dsimp only
      rw [outcome_bind]
      have ht := Upholds.upholds (P := P) (m := e.lower) f s hs
      rcases hlower : outcome e.lower f s with ⟨_ | v, t⟩ <;> rw [hlower] at ht
      · exact ht
      dsimp only
      rw [outcome_bind]
      have hrecorded : P (outcome (recordConstant v.slot w) f t).2 := by
        unfold recordConstant
        by_cases hplain : v.slot.offset.isNone ∧ (v.slot.kind = .long ∨ v.slot.kind = .fixed)
        · obtain ⟨slot, hslot, hname, hkind⟩ := exists_slot_of_constValue? hvalue hlower hplain.1
          rw [if_pos hplain]
          exact hname ▸ hrecord w ht hslot (hkind ▸ hplain.2)
        · rw [if_neg hplain]
          exact ht
      rcases hrecord : outcome (recordConstant v.slot w) f t with ⟨_ | x, u⟩ <;>
        rw [hrecord] at hrecorded
      · exact hrecorded
      · exact Upholds.upholds f u hrecorded

end Lower

/-- A session with the registers of the options in front and members that can be declared. -/
structure Session.Fronted (count : Nat) (origin : String → Prop) (s : Session) : Prop where
  table : s.table.Registers count origin
  catalog : s.catalog.Sound
  bound : count ≤ 10

namespace Session

variable {count : Nat} {origin : String → Prop} {s t : Session}

theorem fronted_of_move {s t : Scope} (h : s.Move t) (hs : s.session.Fronted count origin) :
    t.session.Fronted count origin := by
  cases h with
  | mark asmName => exact ⟨hs.table.markSet asmName, hs.catalog, hs.bound⟩
  | number => exact ⟨hs.table, hs.catalog, hs.bound⟩
  | warn journal => exact ⟨hs.table, hs.catalog, hs.bound⟩
  | _ => exact hs

theorem Move.fronted (h : s.Move t) (hs : s.Fronted count origin) : t.Fronted count origin := by
  cases h with
  | number => exact ⟨hs.table, hs.catalog, hs.bound⟩
  | declared asmName => exact ⟨hs.table.markDeclared asmName, hs.catalog, hs.bound⟩
  | sentence hk f =>
    refine Lower.Sentence.upholds (P := fun s => s.session.Fronted count origin) fronted_of_move id
      (fun value hs hslot hkind => ?_) hk f (s := .start s) hs
    refine ⟨hs.table.setContent hslot ?_ _, hs.catalog, hs.bound⟩
    rcases hkind with hkind | hkind <;> simp [hkind]

/-- A part of the session that is none of its table and that no move of a scope changes stays. -/
theorem Leads.same {α : Type} {part : Session → α}
    (htable : ∀ (u : Session) (table : Table), part { u with table } = part u)
    (hmove : ∀ {w w' : Scope}, w.Move w' → part w'.session = part w.session) (h : s.Leads t) :
    part t = part s := by
  refine h.preserves (P := fun u => part u = part s) (fun {u v} hstep hu => ?_) rfl
  cases hstep with
  | number => exact (hmove (.number (.start u))).trans hu
  | declared => exact (htable u _).trans hu
  | sentence hk f =>
    exact Lower.Sentence.upholds (P := fun w => part w.session = part s) (fun h hw => (hmove h).trans hw)
      id (fun _ hw _ _ => (htable _ _).trans hw) hk f (s := .start u) hu

/-! ## Definitions keep the registers in front -/

theorem nodup_startNames {registers constants : Nat} (hregisters : registers ≤ 10)
    (hconstants : constants ≤ 10) :
    ((registerSlots registers ++ constantSlots constants).map Slot.asmName).Nodup := by
  have hregisters : (registerSlots registers).Sublist (registerSlots 10) :=
    (List.range_sublist.mpr hregisters).map _
  have hconstants : (constantSlots constants).Sublist (constantSlots 10) :=
    (List.range_sublist.mpr hconstants).map _
  exact List.Nodup.sublist ((hregisters.append hconstants).map Slot.asmName) (by decide)

theorem fronted_start {options : Options} (h : start options = .ok s) :
    s.Fronted options.registers origin := by
  obtain ⟨hvalid, rfl⟩ := start_eq_ok h
  have hsizes : options.registers ≤ 10 ∧ options.constants ≤ 10 := by
    simp only [Options.fault?] at hvalid
    grind
  have hnames := nodup_startNames hsizes.1 hsizes.2
  refine ⟨⟨Table.laidOut_empty.append _, ?_⟩, by simp [Catalog.Sound], hsizes.1⟩
  rw [Table.append_eq_of_none (Table.append_empty_eq_none hnames), Table.placedFrom_append]
  refine ⟨_, rfl, fun x hx => ?_⟩
  obtain ⟨c, hc, a, rfl⟩ := Table.exists_of_mem_placedFrom hx
  have hfits := fits_constantSlots _ c hc
  have hkind : c.kind ≠ .register := by
    obtain ⟨i, -, rfl⟩ := List.mem_map.mp hc
    simp
  exact ⟨hkind, fun hname => absurd (hfits.register.mpr hname) hkind⟩

end Session

/-- A place where a program can declare something. -/
def Place.IsSite (place : Place) : Prop :=
  place = .global ∨ ∃ name, place = .function name ∨ place = .arguments name

/-- The name stands as a variable in one of the global declarations. -/
def DeclaredGlobally (defined : List (Place × Definition)) (name : String) : Prop :=
  ∃ tokens, (.global, .variables tokens) ∈ defined ∧ ∃ t ∈ tokens, t.kind = .ident ∧ t.value = name

theorem DeclaredGlobally.mono {defined later : List (Place × Definition)} {name : String}
    (h : DeclaredGlobally defined name) : DeclaredGlobally (defined ++ later) name := by
  obtain ⟨tokens, hmem, hname⟩ := h
  exact ⟨tokens, List.mem_append_left later hmem, hname⟩

theorem Slot.NamedBy.declaredGlobally {s : Slot} {place : Place} {tokens : List Token}
    (h : s.NamedBy place tokens) (hplace : place.IsSite) (hname : isRegisterName s.asmName = true) :
    DeclaredGlobally [(place, .variables tokens)] s.asmName := by
  rcases h with h | ⟨t, ht, hkind, heq⟩
  · simp [h] at hname
  rcases hplace with rfl | ⟨name, rfl | rfl⟩
  · exact ⟨tokens, by simp, t, ht, hkind, by simpa [Place.global] using heq.symm⟩
  · rw [heq, (Session.avoids_function name tokens).1 t ht hkind] at hname
    simp at hname
  · rw [heq, (Session.avoids_function name tokens).2 t ht hkind] at hname
    simp at hname

namespace Session

variable {count : Nat} {origin : String → Prop}

/-- A session that definitions and code in any order lead to from a start, with the definitions so
far. A step that fails counts as well, with what it has changed. -/
inductive Reached (options : Options) : List (Place × Definition) → Session → Prop
  | start {s} (h : Session.start options = .ok s) : Reached options [] s
  | define {defined s} (h : Reached options defined s)
      {place} (hplace : place.IsSite) (definition : Definition) :
      Reached options (defined ++ [(place, definition)]) (result (define place definition) s).2
  | sign {defined s} (h : Reached options defined s)
      (functions : List Signature) : Reached options defined { s with functions }
  | emit {defined s t} (h : Reached options defined s)
      (hleads : s.Leads t) : Reached options defined t

variable {options : Options} {defined : List (Place × Definition)} {s : Session}

theorem Fronted.mono {origin origin' : String → Prop} (h : s.Fronted count origin)
    (horigin : ∀ name, origin name → origin' name) : s.Fronted count origin' :=
  ⟨Table.Opens.mono h.table fun _ hx => ⟨hx.1, fun hname => horigin _ (hx.2 hname)⟩, h.catalog,
    h.bound⟩

theorem Fronted.liftLayout {α : Type} {step : Layout α} {Q : α → Prop} (h : s.Fronted count origin)
    (hstep : Keeps Catalog.Sound step Q) :
    (result (liftLayout step) s).2.Fronted count origin ∧
      ∀ a, (result (liftLayout step) s).1 = .ok a → Q a := by
  rw [result_liftLayout]
  obtain ⟨hcatalog, hQ⟩ := hstep s.catalog h.catalog
  exact ⟨⟨h.table, hcatalog, h.bound⟩, hQ⟩

theorem Fronted.declare (h : s.Fronted count origin) {place : Place} (tokens : List Token)
    (horigin : ∀ x : Slot, x.NamedBy place tokens → isRegisterName x.asmName = true → origin x.asmName) :
    (result (Session.declare place tokens) s).2.Fronted count origin := by
  obtain ⟨hcatalog, hdeclared⟩ :=
    keeps_walkPhrase { place } .idle false false "" tokens s.catalog h.catalog
  obtain ⟨slots, hslots, heq⟩ := declare_adds place tokens s
  rw [heq]
  refine ⟨Table.Opens.append h.table fun x hx a => ?_, hcatalog, h.bound⟩
  obtain ⟨hdeclarable, hnamed⟩ := hslots _ hdeclared x hx
  exact ⟨hdeclarable.register, horigin x hnamed⟩

theorem Reached.fronted (h : Reached options defined s) :
    s.Fronted options.registers (DeclaredGlobally defined) := by
  induction h with
  | start h => exact fronted_start h
  | sign _ functions ih => exact ⟨ih.table, ih.catalog, ih.bound⟩
  | emit _ hleads ih => exact hleads.preserves (P := Fronted _ _) Move.fronted ih
  | @define defined s _ place hplace definition ih =>
    have hs : s.Fronted options.registers (DeclaredGlobally (defined ++ [(place, definition)])) :=
      ih.mono fun _ => DeclaredGlobally.mono
    rcases definition with tokens | ⟨name, members, line⟩
    · rw [define_variables]
      refine hs.declare tokens fun x hx hname => ?_
      obtain ⟨tokens', hmem, ht⟩ := hx.declaredGlobally hplace hname
      exact ⟨tokens', List.mem_append_right defined hmem, ht⟩
    · exact (hs.liftLayout (keeps_defineStruct place name members line)).1

end Session

/-! ## What the pool hands out -/

namespace Pool

theorem takeFirst?_cons (taken : List Slot) (slot : Slot) (free : List Slot) :
    takeFirst? (taken.map (Register.mk · true) ++ (slot :: free).map (Register.mk · false)) =
      some (slot, (taken ++ [slot]).map (Register.mk · true) ++ free.map (Register.mk · false)) := by
  induction taken with
  | nil => simp [takeFirst?]
  | cons x taken ih =>
    rw [List.map_cons, List.cons_append, takeFirst?, if_pos rfl, ih]
    rfl

theorem takeFirst?_nil (taken : List Slot) :
    takeFirst? (taken.map (Register.mk · true)) = none := by
  induction taken with
  | nil => rfl
  | cons x taken ih => simp [takeFirst?, ih]

end Pool

namespace Lower

/-- Take a number of scratch places, one after the other. -/
def allocateAll : (count : Nat) → Lower (List Slot)
  | 0 => return []
  | count + 1 => do
    let slot ← allocate
    return slot :: (← allocateAll count)

/-- With no target to hand out, scratch places are the free registers in their order, and once these
are gone a failure. -/
theorem outcome_allocateAll (f : Frame) (count : Nat) (taken free : List Slot) {s : Scope}
    (hreuse : s.reuse = .forbidden) (hpool : s.pool.registers =
      taken.map (Register.mk · true) ++ free.map (Register.mk · false)) :
    (outcome (allocateAll count) f s).1 =
      if count ≤ free.length then .ok (free.take count)
      else .error (.atLine f.line (.registersExhausted (taken.length + free.length))) := by
  induction count generalizing taken free s with
  | zero => simp [allocateAll]
  | succ count ih =>
    rw [allocateAll, outcome_bind]
    cases free with
    | nil =>
      have hnone : s.pool.allocate? = none := by
        rw [Pool.allocate?, hpool, List.map_nil, List.append_nil, Pool.takeFirst?_nil]
        rfl
      have hcapacity : s.pool.capacity = taken.length := by simp [Pool.capacity, hpool]
      have hallocate : outcome allocate f s =
          (.error (.atLine f.line (.registersExhausted taken.length)), s) := by
        simp [allocate, outcome_bind, hreuse, hnone, hcapacity]
      rw [hallocate]
      simp
    | cons slot free =>
      have hsome : s.pool.allocate? = some (slot, ⟨(taken ++ [slot]).map (Register.mk · true) ++
          free.map (Register.mk · false)⟩) := by
        rw [Pool.allocate?, hpool, Pool.takeFirst?_cons]
        rfl
      have hallocate : outcome allocate f s = (.ok slot, { s with pool :=
          ⟨(taken ++ [slot]).map (Register.mk · true) ++ free.map (Register.mk · false)⟩ }) := by
        simp only [allocate, outcome_bind, outcome_get, hreuse, hsome, outcome_set, outcome_pure]
      have hrest := ih (taken ++ [slot]) free (s := { s with pool :=
        ⟨(taken ++ [slot]).map (Register.mk · true) ++ free.map (Register.mk · false)⟩ }) hreuse rfl
      rw [hallocate]
      dsimp only
      rw [outcome_bind]
      rcases h : outcome (allocateAll count) f _ with ⟨e | slots, t⟩ <;> rw [h] at hrest
      · by_cases hcount : count ≤ free.length
        · simp [hcount] at hrest
        · simpa [hcount, Nat.add_assoc, Nat.add_comm 1] using hrest
      · by_cases hcount : count ≤ free.length
        · simpa [hcount] using hrest
        · simp [hcount] at hrest

end Lower

/-! ## Programs -/

/-- The definitions of a function: its arguments, then its variables and structs. -/
def Function.definitions (f : Function) : List (Place × Definition) :=
  (if f.takesNothing then [] else [(.arguments f.name, .variables f.arguments)]) ++
    (Stmt.blockDefinitions f.body).map (Prod.mk (.function f.name))

/-- All definitions of a program in the order in which they are laid out. -/
def Program.definitions (program : Program) : List (Place × Definition) :=
  (Stmt.blockDefinitions program.main).map (Prod.mk .global) ++
    program.functions.flatMap Function.definitions

variable {options : Options} {defined : List (Place × Definition)} {s t : Session}

namespace Session.Reached

theorem defineEach (h : Reached options defined s) {place : Place} (hplace : place.IsSite)
    {definitions : List Definition}
    (hall : result (definitions.forM (Session.define place)) s = (.ok (), t)) :
    Reached options (defined ++ definitions.map (Prod.mk place)) t := by
  induction definitions generalizing defined s with
  | nil =>
    obtain ⟨-, rfl⟩ := Prod.mk.inj hall
    simpa using h
  | cons d rest ih =>
    rw [List.forM_eq_forM, List.forM_cons, result_bind_eq_ok] at hall
    obtain ⟨_, u, hfirst, hrest⟩ := hall
    have hu := h.define hplace d
    rw [hfirst] at hu
    simpa using ih hu hrest

theorem defineFunction (h : Reached options defined s) {f : Function}
    (hf : result (Session.defineFunction f) s = (.ok (), t)) :
    Reached options (defined ++ f.definitions) t := by
  have hrest {arguments : List Slot} {defined : List (Place × Definition)} {u : Session}
      (hu : Reached options defined u)
      (h : result (do
        modify fun s => { s with functions := s.functions ++ [signatureOf f arguments] }
        Session.defineAll (.function f.name) f.body) u = (.ok (), t)) :
      Reached options
        (defined ++ (Stmt.blockDefinitions f.body).map (Prod.mk (.function f.name))) t := by
    simp only [result_bind, result_modify] at h
    exact (hu.sign _).defineEach (.inr ⟨f.name, .inl rfl⟩) h
  unfold Session.defineFunction at hf
  simp only [result_bind, result_get] at hf
  split at hf
  · simp at hf
  unfold Function.definitions
  by_cases hnothing : f.takesNothing = true
  · simp only [hnothing, if_true, List.nil_append] at hf ⊢
    exact hrest h hf
  · simp only [hnothing] at hf ⊢
    obtain ⟨arguments, u, hdeclare, hf⟩ := result_bind_eq_ok.mp hf
    have hplace : (Place.arguments f.name).IsSite := .inr ⟨f.name, .inr rfl⟩
    have hu := h.define hplace (.variables f.arguments)
    rw [show (result (Session.define (.arguments f.name) (.variables f.arguments)) s) = (.ok (), u)
      from result_bind_eq_ok.mpr ⟨arguments, u, hdeclare, rfl⟩] at hu
    simpa using hrest hu hf

theorem defineFunctions (h : Reached options defined s) {functions : List Function}
    (hall : result (functions.forM Session.defineFunction) s = (.ok (), t)) :
    Reached options (defined ++ functions.flatMap Function.definitions) t := by
  induction functions generalizing defined s with
  | nil =>
    obtain ⟨-, rfl⟩ := Prod.mk.inj hall
    simpa using h
  | cons f rest ih =>
    rw [List.forM_eq_forM, List.forM_cons, result_bind_eq_ok] at hall
    obtain ⟨_, u, hfirst, hrest⟩ := hall
    rw [List.flatMap_cons, ← List.append_assoc]
    exact ih (h.defineFunction hfirst) hrest

theorem build {program : Program} (h : Reached options [] s)
    (hbuild : result (Session.build program) s = (.ok (), t)) :
    Reached options program.definitions t := by
  obtain ⟨_, u, hmain, hfunctions⟩ := result_bind_eq_ok.mp hbuild
  exact (h.defineEach (.inl rfl) hmain).defineFunctions hfunctions

end Session.Reached

namespace Session

/-- The pool of every scope has the registers that the options ask for, and after them exactly the
slots that the program has declared under the name of a register. All of these are handed out, in
this order. -/
theorem pool_eq_configured_append_declared (h : Reached options defined s) :
    let declared := s.table.slots.filter fun x => x.kind ≠ .register && isRegisterName x.asmName
    (Scope.start s).pool.slots = configured options.registers ++ declared ∧
    (∀ x ∈ declared, DeclaredGlobally defined x.asmName ∧
      ∃ d, options.registers ≤ d ∧ d < 10 ∧ x.asmName = s!"r{d}") ∧
    ∀ (f : Frame) (count : Nat),
      (outcome (Lower.allocateAll count) f (.start s)).1 =
        if count ≤ options.registers + declared.length then
          .ok ((configured options.registers ++ declared).take count)
        else .error (.atLine f.line
          (.registersExhausted (options.registers + declared.length))) := by
  intro declared
  obtain ⟨htable, -, hbound⟩ := h.fronted
  have hregisters : s.table.registers = configured options.registers ++ declared :=
    htable.registers_eq hbound
  refine ⟨(Scope.registers_start s).trans hregisters, fun x hx => ?_, fun f count => ?_⟩
  · obtain ⟨hmem, hx⟩ := List.mem_filter.mp hx
    simp only [ne_eq, Bool.and_eq_true, decide_eq_true_eq] at hx
    obtain ⟨hkind, hname⟩ := hx
    obtain ⟨d, hd, hdname⟩ := isRegisterName_iff.mp hname
    refine ⟨(htable.addedBy hmem hkind).2 hname, d, ?_, hd, hdname⟩
    by_contra hlt
    obtain ⟨y, hy, hyname⟩ := exists_configured (Nat.lt_of_not_le hlt)
    exact htable.name_ne hmem hkind hy (hyname.trans hdname.symm)
  · have hlength : (configured options.registers ++ declared).length =
        options.registers + declared.length := by
      rw [List.length_append, length_configured]
    have hpool : (Scope.start s).pool.registers = [].map (Register.mk · true) ++
        (configured options.registers ++ declared).map (Register.mk · false) := by
      rw [← hregisters]
      rfl
    rw [Lower.outcome_allocateAll f count [] _ rfl hpool, hlength, List.length_nil, Nat.zero_add]

end Session

/-- The session that the layout of a program gives. -/
def Program.layout? (options : Options) (program : Program) : Option Session :=
  match Session.start options with
  | .error _ => none
  | .ok s =>
    match result (Session.build program) s with
    | (.error _, _) => none
    | (.ok (), t) => some t

theorem Program.reached_of_layout? {program : Program}
    (h : program.layout? options = some s) : s.Reached options program.definitions := by
  unfold layout? at h
  split at h
  · simp at h
  next hstart =>
  split at h
  · simp at h
  next hbuild =>
  obtain rfl := Option.some.inj h
  exact (Session.Reached.start hstart).build hbuild

/-- A program whose variable has the name of a register. -/
def borrowedVariable : Program where
  main := [.declaration [.keyword "long" 1, .ident "a" 1, .comma 1, .ident "r5" 1]]

/-- With one register asked for, the second scratch place is the variable of the program. -/
theorem borrowedVariable_handed_out :
    ∃ s : Session, s.Reached { registers := 1 } borrowedVariable.definitions ∧
      ∀ f : Frame, (outcome (Lower.allocateAll 2) f (.start s)).1.toOption.map
        (List.map Slot.asmName) = some ["r0", "r5"] := by
  have hlayout : (borrowedVariable.layout? { registers := 1 }).any fun s =>
      (s.table.slots.filter fun x => x.kind ≠ .register && isRegisterName x.asmName).map
        Slot.asmName = ["r5"] := by
    decide +kernel
  obtain ⟨s, hs, hdeclared⟩ := (Option.any_eq_true _ _).mp hlayout
  have hdeclared := of_decide_eq_true hdeclared
  have hregister : (Session.configured 1).map Slot.asmName = ["r0"] := by decide
  have hs := Program.reached_of_layout? hs
  refine ⟨s, hs, fun f => ?_⟩
  rw [(Session.pool_eq_configured_append_declared hs).2.2 f 2]
  generalize s.table.slots.filter _ = declared at hdeclared ⊢
  have hlength : declared.length = 1 := by simpa using congrArg List.length hdeclared
  simp [hlength, Except.toOption, List.map_take, hregister, hdeclared]

end Flatword
