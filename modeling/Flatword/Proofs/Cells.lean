import Flatword.Proofs.Access
import Flatword.Proofs.Header
import Flatword.Proofs.Footing

/-!
# Arrays of words and their cells

The header of an array of words is followed by its cells, which are plain words. So in the code that follows
some definitions, the word as far behind the header as an index says is the cell of that index.
-/

namespace Flatword

/-! ## Cells behind a header -/

def Slot.profile (x : Slot) : Kind × Option ArrayItem :=
  (x.kind, x.item)

/-- Every header of an array of words is followed by as many words as it counts. -/
def Celled : List (Kind × Option ArrayItem) → Prop
  | [] => True
  | x :: rest =>
    (∀ item, x.1 = .array → x.2 = some item → item.kind ≠ .struct →
      ∃ cells, cells <+: rest ∧ cells.length + 1 = item.totalSize ∧
        ∀ c ∈ cells, c.1.isRegular = true) ∧ Celled rest

section Celled

variable {front back : List (Kind × Option ArrayItem)} {x : Kind × Option ArrayItem}

theorem Celled.append (hf : Celled front) (hb : Celled back) : Celled (front ++ back) := by
  induction front with
  | nil => exact hb
  | cons x front ih =>
    refine ⟨fun item hk hitem hstruct => ?_, ih hf.2⟩
    obtain ⟨cells, hcells, h⟩ := hf.1 item hk hitem hstruct
    exact ⟨cells, hcells.trans (List.prefix_append ..), h⟩

theorem Celled.flatMap {α : Type} {xs : List α} {g : α → List (Kind × Option ArrayItem)}
    (h : ∀ x ∈ xs, Celled (g x)) : Celled (xs.flatMap g) := by
  induction xs with
  | nil => trivial
  | cons x xs ih => exact (h x (by simp)).append (ih fun y hy => h y (by simp [hy]))

theorem celled_of_kind (h : ∀ x ∈ front, x.1 ≠ .array) : Celled front := by
  induction front with
  | nil => trivial
  | cons x front ih =>
    exact ⟨fun _ hk => absurd hk (h x (by simp)), ih fun y hy => h y (by simp [hy])⟩

theorem Celled.cells (h : Celled (front ++ x :: back)) {item : ArrayItem} (hk : x.1 = .array)
    (hitem : x.2 = some item) (hstruct : item.kind ≠ .struct) :
    ∃ cells, cells <+: back ∧ cells.length + 1 = item.totalSize ∧ ∀ c ∈ cells, c.1.isRegular = true := by
  induction front with
  | nil => exact h.1 item hk hitem hstruct
  | cons y front ih => exact ih h.2

end Celled

/-! ## What is declared -/

section Declared

variable {c c' : Catalog} {frame : PhraseFrame} {notes : List Note}

theorem Declarator.celled_instantiate {S : StructShape} (hkind : S.template.kind = .struct)
    (hS : Celled (S.members.map Slot.profile)) (place : Place) (name : String) :
    Celled ((instantiate place S name).map Slot.profile) := by
  have hprofile : (instantiate place S name).map Slot.profile =
      S.template.profile :: S.members.map Slot.profile := by
    simp [instantiate, Slot.profile]
  rw [hprofile]
  refine ⟨fun item hk => ?_, hS⟩
  simp [Slot.profile, hkind] at hk

theorem Declarator.Declares.celled {d : Declarator} {declared : Declared}
    (hc : ∀ S, Shape.struct S ∈ c → S.template.kind = .struct ∧ Celled (S.members.map Slot.profile))
    (h : d.Declares frame c declared) : Celled (declared.slots.map Slot.profile) := by
  cases h with
  | word hname hasm harray hstruct => exact celled_of_kind (by simpa [Slot.profile] using harray)
  | struct hS => exact celled_instantiate (hc _ hS).1 (hc _ hS).2 _ _
  | @words header element type dimensions total _ htotal _ _ _ _ _ hitem helement =>
    have hcell : ∀ x ∈ (cells header element type (total - 1)).map Slot.profile,
        x.1.isRegular = true := by
      intro x hx
      obtain ⟨cell, hcell, rfl⟩ := List.mem_map.mp hx
      have hkind : cell.profile.1 = element.kind := (mem_cells hcell).1
      rw [hkind]
      exact helement
    refine ⟨fun item _ hother _ => ⟨_, List.prefix_rfl, ?_, hcell⟩, celled_of_kind fun x hx hk => ?_⟩
    · obtain ⟨item', hitem, -, rfl⟩ := hitem
      obtain rfl := Option.some.inj (hitem.symm.trans hother)
      obtain ⟨count, hcount⟩ := arrayTotal?_eq_some htotal
      simp only [List.length_map, cells, List.length_range]
      omega
    · have hregular := hcell x hx
      simp [hk, Kind.isRegular] at hregular
  | @structs S head header dimensions total hS _ _ _ _ _ _ _ _ hitem hhead =>
    rw [List.map_cons, List.map_flatMap]
    refine ⟨fun item _ hother hstruct => absurd ?_ hstruct, .flatMap fun i _ =>
      celled_instantiate (hc S hS).1 (hc S hS).2 _ _⟩
    subst hhead
    obtain rfl := Option.some.inj (hitem.symm.trans hother)
    rfl

theorem Phrase.celled {tokens : List Token} {slots : List Slot}
    (hc : ∀ S, Shape.struct S ∈ c → S.template.kind = .struct ∧ Celled (S.members.map Slot.profile))
    (h : Phrase frame tokens c notes slots c') : Celled (slots.map Slot.profile) := by
  rw [h.slots_eq, List.map_flatMap]
  exact .flatMap fun n hn => (h.written n hn).2.2.celled hc

end Declared

theorem Table.map_profile_placedFrom (first : Nat) (slots : List Slot) :
    (Table.placedFrom first slots).map Slot.profile = slots.map Slot.profile := by
  induction slots generalizing first with
  | nil => rfl
  | cons x rest ih => exact congrArg (x.profile :: ·) (ih _)

namespace Session

variable {options : Options} {notes : List Note} {s : Session}

theorem celled_start (h : start options = .ok s) : Celled (s.table.slots.map Slot.profile) := by
  refine celled_of_kind fun x hx => ?_
  obtain ⟨y, hy, rfl⟩ := List.mem_map.mp hx
  exact (kind_of_start h y hy).2

theorem catalog_start (h : start options = .ok s) : s.catalog = [] := by
  obtain ⟨-, rfl⟩ := start_eq_ok h
  rfl

theorem Accounted.celled (h : Accounted options notes s) :
    Celled (s.table.slots.map Slot.profile) ∧ ∀ S, Shape.struct S ∈ s.catalog →
      S.template.kind = .struct ∧ Celled (S.members.map Slot.profile) := by
  induction h with
  | start h => exact ⟨celled_start h, by simp [catalog_start h]⟩
  | @phrase notes new s c place tokens slots hs hphrase hnone ih =>
    refine ⟨?_, fun S hS => ih.2 S ?_⟩
    · show Celled ((s.table.append slots).1.slots.map Slot.profile)
      rw [Table.append_eq_of_none hnone, List.map_append, Table.map_profile_placedFrom]
      exact ih.1.append (hphrase.celled ih.2)
    · simpa [hphrase.catalog_eq] using hS
  | @struct notes new s c place S members hs hphrase hstem hnew hkind hname hshape hsize ih =>
    refine ⟨ih.1, fun S' hS' => ?_⟩
    rcases List.mem_append.mp hS' with hS' | hS'
    · exact ih.2 S' (by simpa [hphrase.catalog_eq] using hS')
    · obtain rfl : S' = S := by simpa using hS'
      exact ⟨hkind, hphrase.celled ih.2⟩

end Session

/-! ## Sessions -/

namespace Session

variable {options : Options} {defined : List (Place × Definition)} {s t : Session}

theorem Defined.laid (h : Defined options defined s) : s.Laid := by
  induction h with
  | start h => exact laid_start h
  | define _ h ih => exact ih.define h

theorem Defined.reached (h : Defined options defined s) (hsites : ∀ d ∈ defined, d.1.IsSite) :
    Reached options defined s := by
  induction h with
  | start h => exact .start h
  | @define defined s t _ place definition h ih =>
    have hs := ih fun d hd => hsites d (List.mem_append_left _ hd)
    have ht := hs.define (hsites (place, definition) (by simp)) definition
    rwa [h] at ht

theorem Leads.catalog (h : s.Leads t) : t.catalog = s.catalog :=
  h.same (fun _ _ => rfl) fun hmove => (congrArg Ground.catalog hmove.ground :)

end Session

theorem Table.LaidOut.isRegular_behind {t : Table} (h : t.LaidOut)
    (hcelled : Celled (t.slots.map Slot.profile)) {header x : Slot} {item : ArrayItem} {a i : Nat}
    (hheader : header ∈ t.slots) (hkind : header.kind = .array) (hitem : header.item = some item)
    (hstruct : item.kind ≠ .struct) (ha : header.address = some a) (hi : i + 1 < item.totalSize)
    (hx : x ∈ t.slots) (hxk : x.kind ≠ .struct) (hxa : x.address = some (a + 1 + i)) :
    x.kind.isRegular = true := by
  obtain ⟨front, back, hsplit⟩ := List.append_of_mem hheader
  rw [hsplit, List.map_append, List.map_cons] at hcelled
  obtain ⟨cells, ⟨more, hcells⟩, hcount, hregular⟩ := hcelled.cells hkind hitem hstruct
  obtain ⟨body, rest, rfl, rfl, -⟩ := List.map_eq_append_iff.mp hcells.symm
  rw [List.length_map] at hcount
  have hregular (y : Slot) (hy : y ∈ body) : y.kind.isRegular = true :=
    hregular y.profile (List.mem_map_of_mem hy)
  have hlt : i < body.length := by omega
  have hwidth : wordCount ((body.take i).map Slot.kind) = i := by
    have hall : ∀ k ∈ (body.take i).map Slot.kind, k ≠ Kind.struct := by
      intro k hk hstruct
      obtain ⟨y, hy, rfl⟩ := List.mem_map.mp hk
      have hword := hregular y (List.mem_of_mem_take hy)
      simp [hstruct, Kind.isRegular] at hword
    rw [wordCount, List.countP_eq_length.mpr (by simpa using hall), List.length_map,
      List.length_take_of_le (Nat.le_of_lt hlt)]
  -- The slot that stands that far behind the header has this address, and no other word has it.
  have hparts : t.slots = front ++ header :: (body.take i ++ body[i] :: (body.drop (i + 1) ++ rest)) := by
    rw [hsplit]
    conv_lhs => rw [← List.take_append_drop i body, List.drop_eq_getElem_cons hlt]
    rw [List.append_assoc, List.cons_append]
  have haddress : body[i].address = some (a + 1 + i) := by
    rw [h.address_behind hparts ha, hkind, hwidth]
    rfl
  have hword := hregular body[i] (List.getElem_mem hlt)
  have hsame : x = body[i] := by
    refine h.eq_of_address hx ?_ hxk ?_ (hxa.trans haddress.symm)
    · simp [hparts]
    · intro hk
      simp [hk, Kind.isRegular] at hword
  exact hsame ▸ hword

/-! ## Scopes on a machine -/

namespace Lower

/-- A scope in the code that follows some definitions, on a machine that has the words of the table. -/
structure Located (options : Options) (definitions : List (Place × Definition)) (before now : Session)
    (m : Machine) (u : Scope) : Prop where
  defined : Session.Defined options definitions before
  sites : ∀ d ∈ definitions, d.1.IsSite
  code : ∃ functions, Session.Leads { before with functions } now
  machine : m.Has now.table
  scope : (Scope.start now).Leads u

namespace Located

variable {arr : Slot} {w : Word} {options : Options} {definitions : List (Place × Definition)}
  {before now : Session} {m : Machine} {u v : Scope}

/-- Right behind definitions that are all global. -/
theorem start (h : Session.Defined options definitions now)
    (hglobal : ∀ d ∈ definitions, d.1 = .global) (alu : Alu) :
    Located options definitions now now (now.table.machine alu) (Scope.start now) :=
  ⟨h, fun d hd => .inl (hglobal d hd), ⟨now.functions, .refl now⟩,
    Table.has_machine h.laid.table.layout.names alu, .refl _⟩

theorem reached (h : Located options definitions before now m u) : now.Reached options definitions := by
  obtain ⟨functions, hcode⟩ := h.code
  exact ((h.defined.reached h.sites).sign functions).emit hcode

theorem ground (h : Located options definitions before now m u) : u.ground = (Scope.start now).ground :=
  h.scope.ground

theorem catalog (h : Located options definitions before now m u) : u.session.catalog = before.catalog := by
  obtain ⟨functions, hcode⟩ := h.code
  have hu : u.ground.catalog = now.catalog := congrArg Ground.catalog h.ground
  exact hu.trans hcode.catalog

theorem exists_slot (h : Located options definitions before now m u) {x : Slot} (hx : u.Knows x) :
    ∃ y ∈ now.table.slots, y.unmarked = x.unmarked := by
  have hmem : x.unmarked ∈ u.ground.slots := hx
  rw [h.ground] at hmem
  exact List.mem_map.mp hmem

theorem offset_eq_none (h : Located options definitions before now m u) {x : Slot} (hx : u.Knows x) :
    x.offset = none := by
  obtain ⟨y, hy, hyx⟩ := h.exists_slot hx
  have hoffset := congrArg Slot.offset hyx
  exact hoffset.symm.trans (h.reached.stored y hy).2

theorem bare (h : Located options definitions before now m u) :
    u.session.table.bare = before.table.bare := by
  obtain ⟨functions, hcode⟩ := h.code
  exact (h.scope.invariant Scope.Move.bare).trans hcode.bare

theorem laidOut (h : Located options definitions before now m u) : u.session.table.LaidOut :=
  h.defined.laid.table.layout.of_bare h.bare

theorem arrayed (h : Located options definitions before now m u) : u.session.Arrayed := by
  obtain ⟨notes, hnotes, -⟩ := h.defined.exists_accounted
  exact hnotes.arrayed.of_bare h.bare h.catalog

theorem header (h : Located options definitions before now m u) (harr : u.Knows arr)
    (hkind : arr.kind = .array) :
    ∃ A, arr.address = some A ∧ arr.value? = some (UInt64.ofNat (A + 1)) := by
  obtain ⟨functions, hcode⟩ := h.code
  obtain ⟨y, hy, hyx⟩ := h.exists_slot harr
  have hyk := congrArg Slot.kind hyx
  have hya := congrArg Slot.address hyx
  have hyv := congrArg Slot.content hyx
  obtain ⟨A, hA, hcontent⟩ := (hcode.laid h.defined.laid.table).contents y hy (hyk.trans hkind)
  refine ⟨A, hya.symm.trans hA, ?_⟩
  have hcontent : arr.content = some (Hex.ofWord (UInt64.ofNat (A + 1))) := hyv.symm.trans hcontent
  rw [Slot.value?, hcontent, Option.bind_some, Hex.value?_ofWord]

theorem later (h : Located options definitions before now m u) (hv : u.Leads v) :
    Located options definitions before now m v :=
  { h with scope := h.scope.trans hv }

theorem laid (h : Located options definitions before now m u) : u.session.table.Laid := by
  obtain ⟨functions, hcode⟩ := h.code
  have hnow := hcode.laid h.defined.laid.table
  have hslots : u.session.table.slots.map Slot.unmarked = now.table.slots.map Slot.unmarked :=
    congrArg Ground.slots h.ground
  have hnext : u.session.table.bare.next = now.table.bare.next :=
    congrArg Table.next (h.scope.invariant Scope.Move.bare)
  refine hnow.congr ?_ hnext
  have houtline := congrArg (List.map Slot.outline) hslots
  rw [List.map_map, List.map_map] at houtline
  exact houtline

theorem celled (h : Located options definitions before now m u) :
    Celled (u.session.table.slots.map Slot.profile) := by
  obtain ⟨notes, hnotes, -⟩ := h.defined.exists_accounted
  rw [Table.map_of_bare h.bare Slot.profile fun _ => rfl]
  exact hnotes.celled.1

theorem isAt (h : Located options definitions before now m u) {x : Slot} (hx : u.Knows x)
    (hk : x.kind ≠ .struct) : ∃ a, x.IsAt m a := by
  obtain ⟨y, hy, hyx⟩ := h.exists_slot hx
  have hkind := congrArg Slot.kind hyx
  have haddress := congrArg Slot.address hyx
  have hname := congrArg Slot.asmName hyx
  obtain ⟨a, ha⟩ := h.reached.fronted.table.layout.exists_address hy
  have hplace := h.machine y hy fun hstruct => hk (hkind.symm.trans hstruct)
  refine ⟨a, haddress.symm.trans ha, ?_⟩
  rw [show x.asmName = y.asmName from hname.symm, hplace, ha]

theorem kind_of_names (h : Located options definitions before now m u) {x : Slot}
    (hx : u.ground.Names x w) : x.kind ≠ .struct := by
  have hmem := hx.mem
  rw [h.ground] at hmem
  obtain ⟨y, hy, rfl⟩ := List.mem_map.mp hmem
  exact (h.reached.ready.written y hy _ hx.content).1

theorem constants (h : Located options definitions before now m u) {x : Slot} (hx : u.ground.Names x w) :
    ∃ a, x.IsAt m a := by
  have hk := h.kind_of_names hx
  obtain ⟨y, hy, rfl⟩ := List.mem_map.mp hx.mem
  exact h.isAt hx.mem hk

theorem cell (h : Located options definitions before now m u) {item : ArrayItem} {A i : Nat}
    (harr : u.Knows arr) (hkind : arr.kind = .array) (hitem : arr.item = some item)
    (hstruct : item.kind ≠ .struct) (haddress : arr.address = some A) (hi : i + 1 < item.totalSize) :
    ∃ x, u.session.table.findAt? (A + 1 + i) = some x ∧ x.isPlain = true ∧ x.IsAt m (A + 1 + i) ∧
      x.Under arr := by
  obtain ⟨y, hy, hyx⟩ := List.mem_map.mp harr
  have hyk : y.kind = .array := (congrArg Slot.kind hyx : y.unmarked.kind = arr.unmarked.kind).trans hkind
  have hya : y.address = some A :=
    (congrArg Slot.address hyx : y.unmarked.address = arr.unmarked.address).trans haddress
  have hyi : y.item = some item := (congrArg Slot.item hyx : y.unmarked.item = arr.unmarked.item).trans hitem
  have hyn : y.asmName = arr.asmName := (congrArg Slot.asmName hyx : y.unmarked.asmName = arr.unmarked.asmName)
  obtain ⟨a, item', cells, ha, hitem', hlength, hunder, hcells⟩ := h.laid.exists_cells hy hyk
  obtain rfl := Option.some.inj (ha.symm.trans hya)
  obtain rfl := Option.some.inj (hitem'.symm.trans hyi)
  have hlt : i < cells.length := by omega
  have hfind := h.laidOut.findAt?_wordSlots (hcells i hlt)
  have hfound := List.find?_some hfind
  simp only [Bool.and_eq_true, decide_eq_true_eq] at hfound
  have hmem := List.mem_of_find?_eq_some hfind
  have hregular := h.laidOut.isRegular_behind h.celled hy hyk hyi hstruct hya hi hmem hfound.2 hfound.1
  refine ⟨cells[i], hfind, ?_, ?_, ?_⟩
  · simp [Slot.isPlain, hregular, h.offset_eq_none (Scope.knows_of_mem hmem)]
  · obtain ⟨b, hb⟩ := h.isAt (Scope.knows_of_mem hmem) hfound.2
    obtain rfl := Option.some.inj (hfound.1.symm.trans hb.1)
    exact hb
  · obtain ⟨rest, hrest⟩ := hunder cells[i] (List.getElem_mem hlt)
    exact ⟨rest, hyn ▸ hrest⟩

end Located

end Lower

end Flatword
