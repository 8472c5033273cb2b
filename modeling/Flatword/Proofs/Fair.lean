import Flatword.Proofs.Scratch
import Flatword.Proofs.Straight

/-!
# Sessions that lowering can rely on

In every session that definitions and code lead to, a slot with a known value is a word and its
value is written out in full, and the shape of an array has a stride for each dimension.
-/

namespace Flatword

/-- A slot that is a word where its value is known, with the value written out in full. -/
def Slot.Written (x : Slot) : Prop :=
  ∀ hex ∈ x.content, x.kind ≠ .struct ∧ ∃ w : Word, hex = Hex.ofWord w

def Catalog.Formed (c : Catalog) : Prop :=
  ∀ shape, Shape.array shape ∈ c → shape.Formed

theorem keeps_formed_walkPhrase (frame : PhraseFrame) (mode : PhraseMode) (first register : Bool)
    (previous : String) (tokens : List Token) :
    Keeps Catalog.Formed (walkPhrase frame mode first register previous tokens) fun _ => True := by
  refine keeps_walkPhrase_of (Q := fun _ _ => True) frame (fun c shapes hc hshapes => ?_)
    (fun _ => trivial) (fun _ _ => trivial) (fun _ _ => trivial)
    (fun _ _ _ _ _ _ _ _ => trivial) (fun _ _ _ _ _ _ _ _ _ _ => trivial) mode first register
    previous tokens
  intro shape hshape
  rcases List.mem_append.mp hshape with hshape | hshape
  · exact hc shape hshape
  · obtain ⟨x, hx, heq⟩ := List.mem_map.mp hshape
    rw [← Shape.array.inj heq]
    exact hshapes x hx

theorem keeps_formed_defineStruct (place : Place) (name : String) (members : List Token)
    (line : Line) :
    Keeps Catalog.Formed (Layout.defineStruct place name members line) fun _ => True := by
  unfold Layout.defineStruct
  refine keeps_bind keeps_get fun c _ => ?_
  dsimp only
  split
  · exact keeps_throw _
  refine keeps_bind (keeps_formed_walkPhrase _ _ _ _ _ _) fun slots _ => ?_
  refine keeps_modify fun c hc shape hshape => hc shape ?_
  simpa using hshape

namespace Table

theorem mem_updateAsm {t : Table} {asmName : String} {change : Slot → Slot} {x : Slot}
    (h : x ∈ (t.updateAsm asmName change).slots) :
    x ∈ t.slots ∨ ∃ y ∈ t.slots, y.asmName = asmName ∧ x = change y := by
  have hgo (slots : List Slot) : x ∈ updateAsm.go asmName change slots →
      x ∈ slots ∨ ∃ y ∈ slots, y.asmName = asmName ∧ x = change y := by
    fun_induction updateAsm.go asmName change slots <;> grind
  exact hgo t.slots h

end Table

namespace Session

/-- The slots of a session have names of their own and are written, and its shapes are formed. -/
structure Ready (s : Session) : Prop where
  names : (s.table.slots.map Slot.asmName).Nodup
  written : ∀ x ∈ s.table.slots, x.Written
  formed : s.catalog.Formed

variable {s t : Session}

theorem Ready.mark (hs : s.Ready) (change : Slot → Slot) (hname : ∀ x, (change x).asmName = x.asmName)
    (hkind : ∀ x, (change x).kind = x.kind) (hcontent : ∀ x, (change x).content = x.content)
    (asmName : String) : Ready { s with table := s.table.updateAsm asmName change } where
  names := by
    rw [Table.map_updateAsm Slot.asmName change _ _ fun x _ _ => hname x]
    exact hs.names
  written x hx := by
    rcases Table.mem_updateAsm hx with hx | ⟨y, hy, -, rfl⟩
    · exact hs.written x hx
    · intro hex hhex
      rw [hkind]
      exact hs.written y hy hex (hcontent y ▸ hhex)
  formed := hs.formed

theorem Ready.setContent (hs : s.Ready) {slot : Slot} (hslot : slot ∈ s.table.slots)
    (hkind : slot.kind ≠ .struct) (w : Word) :
    Ready { s with table := s.table.setContent slot.asmName (Hex.ofWord w) } where
  names := by
    rw [Table.setContent, Table.map_updateAsm Slot.asmName
      ({ · with content := some (Hex.ofWord w), isSet := true }) _ _ fun _ _ _ => rfl]
    exact hs.names
  written x hx := by
    rcases Table.mem_updateAsm hx with hx | ⟨y, hy, hname, rfl⟩
    · exact hs.written x hx
    · obtain rfl : y = slot := List.inj_on_of_nodup_map hs.names hy hslot hname
      intro hex hhex
      exact ⟨hkind, w, (Option.some.inj hhex).symm⟩
  formed := hs.formed

theorem ready_of_move {s t : Scope} (h : s.Move t) (hs : s.session.Ready) : t.session.Ready := by
  cases h with
  | mark asmName =>
    exact hs.mark ({ · with isSet := true }) (fun _ => rfl) (fun _ => rfl)
      (fun _ => rfl) asmName
  | number => exact ⟨hs.names, hs.written, hs.formed⟩
  | warn journal => exact ⟨hs.names, hs.written, hs.formed⟩
  | _ => exact hs

theorem Move.ready (h : s.Move t) (hs : s.Ready) : t.Ready := by
  cases h with
  | number => exact ⟨hs.names, hs.written, hs.formed⟩
  | declared asmName =>
    exact hs.mark ({ · with isDeclared := true }) (fun _ => rfl) (fun _ => rfl)
      (fun _ => rfl) asmName
  | sentence hk f =>
    refine Lower.Sentence.upholds (P := fun s => s.session.Ready) ready_of_move id
      (fun value hs hslot hkind => hs.setContent hslot ?_ value) hk f (s := .start s) hs
    rcases hkind with hkind | hkind <;> simp [hkind]

theorem ready_start {options : Options} (h : start options = .ok s) : s.Ready := by
  have hfronted : s.Fronted options.registers fun _ => True := fronted_start h
  have hnames := hfronted.table.layout.names
  obtain ⟨-, rfl⟩ := start_eq_ok h
  refine ⟨hnames, Table.forall_append (by simp) fun x hx a hex hhex => ?_, by simp [Catalog.Formed]⟩
  rcases List.mem_append.mp hx with hx | hx
  · obtain ⟨i, -, rfl⟩ := List.mem_map.mp hx
    simp [Table.placed] at hhex
  · obtain ⟨i, -, rfl⟩ := List.mem_map.mp hx
    refine ⟨by simp [Table.placed], UInt64.ofNat (i + 1), ?_⟩
    simpa [Table.placed, eq_comm] using hhex

theorem written_placed {x : Slot} (h : x.Declarable) (a : Nat) : (Table.placed x a).Written := by
  intro hex hhex
  by_cases hk : x.kind = .array
  · refine ⟨by simp [Table.placed, hk], UInt64.ofNat (a + 1), ?_⟩
    simpa [Table.placed, hk, eq_comm] using hhex
  · simp [Table.placed, hk, h.content] at hhex

theorem Ready.define (hs : s.Ready) (hcatalog : s.catalog.Sound) (place : Place)
    (definition : Definition) :
    (∀ x ∈ (result (Session.define place definition) s).2.table.slots, x.Written) ∧
      (result (Session.define place definition) s).2.catalog.Formed := by
  rcases definition with tokens | ⟨name, members, line⟩
  · have hdeclared := (keeps_walkPhrase { place } .idle false false "" tokens s.catalog hcatalog).2
    obtain ⟨slots, hslots, heq⟩ := declare_adds place tokens s
    rw [define_variables, heq]
    refine ⟨Table.forall_append hs.written fun x hx a => ?_,
      (keeps_formed_walkPhrase { place } .idle false false "" tokens s.catalog hs.formed).1⟩
    exact written_placed (hslots _ hdeclared x hx).1 a
  · rw [Session.define, result_liftLayout]
    exact ⟨hs.written, (keeps_formed_defineStruct place name members line s.catalog hs.formed).1⟩

namespace Reached

variable {options : Options} {defined : List (Place × Definition)}

theorem ready (h : Reached options defined s) : s.Ready := by
  induction h with
  | start h => exact ready_start h
  | sign _ functions ih => exact ⟨ih.names, ih.written, ih.formed⟩
  | emit _ hleads ih => exact hleads.preserves Move.ready ih
  | @define defined s h place hplace definition ih =>
    obtain ⟨hwritten, hformed⟩ := ih.define h.fronted.catalog place definition
    exact ⟨(h.define hplace definition).fronted.table.layout.names, hwritten, hformed⟩

theorem registers_pos (h : Reached options defined s) : 0 < options.registers := by
  induction h with
  | start h =>
    have hvalid := (Session.start_eq_ok h).1
    simp only [Options.fault?] at hvalid
    grind
  | sign _ _ ih | emit _ _ ih | define _ _ _ ih => exact ih

theorem fair (h : Reached options defined s) : (Scope.start s).ground.Fair := by
  have hfronted := h.fronted
  have hready := h.ready
  refine ⟨fun r hr => ?_, ?_, fun y hy hcontent => ?_, fun shape hshape => ?_⟩
  · rw [Scope.registers_start] at hr
    obtain ⟨hmem, -⟩ := List.mem_filter.mp hr
    obtain ⟨i, hi, rfl⟩ := List.getElem_of_mem hmem
    refine ⟨List.mem_map_of_mem hmem, ?_⟩
    rw [hfronted.table.layout.address_getElem hi]
    simp
  · obtain ⟨x, hx, hname⟩ := exists_configured h.registers_pos
    obtain ⟨later, heq, -⟩ := hfronted.table.split
    refine ⟨x.unmarked, List.mem_map_of_mem (heq ▸ List.mem_append_left later hx), hname, ?_⟩
    obtain ⟨i, -, a, rfl⟩ := exists_of_mem_configured hx
    simp [Slot.unmarked, Table.placed]
  · obtain ⟨x, hx, rfl⟩ := List.mem_map.mp hy
    obtain ⟨hex, hhex⟩ := Option.ne_none_iff_exists'.mp hcontent
    exact (hready.written x hx hex hhex).1
  · obtain ⟨hdimensions, hstrides⟩ := hready.formed shape hshape
    refine ⟨List.length_pos_iff.mpr hdimensions, ?_⟩
    rw [hstrides, ArrayShape.length_stridesOf]

end Reached

end Session

end Flatword
