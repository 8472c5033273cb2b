import Flatword.Proofs.Run
import Flatword.Proofs.Members

/-!
# The shapes of arrays

An array is indexed by the first shape of its name in the catalog, and two declarators may share a name.
Each array in a table is traced back to its declarator, and the shape that is found for it to the first
declarator whose shape has the same name.
-/

namespace Flatword

variable {c : Catalog} {frame : PhraseFrame} {notes : List Note}

/-! ## Declarators of arrays -/

/-- The name of the shape of an array. -/
def Note.shapeName (n : Note) : String :=
  n.frame.shapeStem ++ (n.frame.place.stem ++ n.declarator.name)

/-- An array is what a declarator says: its shape has the dimensions that are written there, and its
strides are made from the words of an element. -/
structure Note.Describes (c : Catalog) (n : Note) (shape : ArrayShape) (item : ArrayItem) (words : Nat)
    (y : Slot) : Prop where
  declared : n.declared.shape = some shape
  name : shape.name = n.shapeName
  shape_eq : y.shape = some shape.name
  item_eq : y.item = some item
  dimensions : n.declarator.dimensions = .ok shape.dimensions
  strides : shape.strides = ArrayShape.stridesOf (UInt64.ofNat words) shape.dimensions
  total : arrayTotal? words shape.dimensions = some item.totalSize
  element : item.kind ≠ .struct ∧ words = 1 ∨
    item.kind = .struct ∧ ∃ S, Shape.struct S ∈ c ∧ S.name = item.shape ∧ S.template.size = words

/-- An array has the name of its declarator. -/
structure Note.Names (stem : String) (n : Note) (y : Slot) : Prop where
  stem : n.frame.shapeStem = stem
  name : y.name = n.declarator.name
  asmName : y.asmName = n.frame.place.stem ++ n.declarator.name

/-- An array is a member of a struct value, under the name of its declarator in the struct. -/
structure Note.NamesIn (n : Note) (o y : Slot) : Prop where
  kind : o.kind = .struct
  stem : ∃ F, o.shape = some F ∧ n.frame.shapeStem = F ++ "_"
  name : y.name = o.name ++ "_" ++ n.declarator.name
  asmName : y.asmName = o.asmName ++ "_" ++ n.declarator.name

/-- Every array comes from a declarator: one of its own, or one of the struct of a value that it is
in. -/
def Sourced (c : Catalog) (notes : List Note) (stem : String) (slots : List Slot) : Prop :=
  ∀ y ∈ slots, y.kind = .array → ∃ n ∈ notes, (∃ shape item words, n.Describes c shape item words y) ∧
    (n.Names stem y ∨ ∃ o ∈ slots, n.NamesIn o y)

section Sourced

variable {c c' : Catalog} {notes new : List Note} {stem : String} {slots front back : List Slot}

theorem Note.Describes.mono {n : Note} {shape : ArrayShape} {item : ArrayItem} {words : Nat} {y : Slot}
    (h : n.Describes c shape item words y) (hc : ∀ S, Shape.struct S ∈ c → Shape.struct S ∈ c') :
    n.Describes c' shape item words y where
  __ := h
  element := by
    rcases h.element with hword | ⟨hstruct, S, hS, hname⟩
    · exact .inl hword
    · exact .inr ⟨hstruct, S, hc S hS, hname⟩

theorem Sourced.mono (h : Sourced c notes stem slots)
    (hc : ∀ S, Shape.struct S ∈ c → Shape.struct S ∈ c') (hnotes : notes ⊆ new) :
    Sourced c' new stem slots := by
  intro y hy hk
  obtain ⟨n, hn, ⟨shape, item, words, hd⟩, hnames⟩ := h y hy hk
  exact ⟨n, hnotes hn, ⟨shape, item, words, hd.mono hc⟩, hnames⟩

theorem Sourced.append (hf : Sourced c notes stem front) (hb : Sourced c notes stem back) :
    Sourced c notes stem (front ++ back) := by
  intro y hy hk
  rcases List.mem_append.mp hy with hy | hy
  · obtain ⟨n, hn, hd, hnames⟩ := hf y hy hk
    exact ⟨n, hn, hd, hnames.imp_right fun ⟨o, ho, h⟩ => ⟨o, List.mem_append_left _ ho, h⟩⟩
  · obtain ⟨n, hn, hd, hnames⟩ := hb y hy hk
    exact ⟨n, hn, hd, hnames.imp_right fun ⟨o, ho, h⟩ => ⟨o, List.mem_append_right _ ho, h⟩⟩

theorem Sourced.flatMap {α : Type} {xs : List α} {g : α → List Slot}
    (h : ∀ x ∈ xs, Sourced c notes stem (g x)) : Sourced c notes stem (xs.flatMap g) := by
  induction xs with
  | nil => exact fun y hy => absurd hy (by simp)
  | cons x xs ih =>
    rw [List.flatMap_cons]
    exact (h x (by simp)).append (ih fun y hy => h y (by simp [hy]))

theorem sourced_of_kind (h : ∀ x ∈ slots, x.kind ≠ .array) : Sourced c notes stem slots :=
  fun y hy hk => absurd hk (h y hy)

end Sourced

/-! ## Phrases -/

namespace Declarator

variable {c : Catalog} {notes : List Note} {S : StructShape}

theorem sourced_instantiate (place : Place) (name stem : String) (hS : S.Arrayed c)
    (hsourced : Sourced c notes (S.name ++ "_") (S.members.map Slot.form))
    (hnodup : ("" :: S.members.map Slot.name).Nodup) :
    Sourced c notes stem ((instantiate place S name).map Slot.form) := by
  have hne : ∀ x ∈ S.members, x.name ≠ "" := by
    intro x hx hempty
    exact (List.nodup_cons.mp hnodup).1 (List.mem_map.mpr ⟨x, hx, hempty⟩)
  have hhead : memberName name S.template = name := by simp [memberName, hS.unnamed]
  rw [instantiate_eq]
  intro y hy hk
  obtain ⟨z, hz, rfl⟩ := List.mem_map.mp hy
  obtain ⟨x, hx, rfl⟩ := List.mem_map.mp hz
  rcases List.mem_cons.mp hx with rfl | hx
  · exact absurd (hS.kind.symm.trans hk) (by decide)
  have hxname : memberName name x = name ++ "_" ++ x.name := memberName_of_ne (hne x hx)
  obtain ⟨n, hn, ⟨shape, item, words, hd⟩, hnames⟩ := hsourced x.form (List.mem_map_of_mem hx) hk
  refine ⟨n, hn, ⟨shape, item, words, { hd with shape_eq := hd.shape_eq, item_eq := hd.item_eq }⟩, .inr ?_⟩
  rcases hnames with hdirect | ⟨o, ho, hnested⟩
  · refine ⟨(inValue place name S.template).form, by simp, hS.kind, ⟨S.name, hS.shape, hdirect.stem⟩, ?_, ?_⟩
    · calc memberName name x = name ++ "_" ++ x.name := hxname
        _ = memberName name S.template ++ "_" ++ n.declarator.name := by
          rw [hhead]
          exact congrArg (name ++ "_" ++ ·) hdirect.name
    · calc place.stem ++ memberName name x
          = place.stem ++ (memberName name S.template ++ "_" ++ n.declarator.name) := by
            rw [hxname, hhead]
            exact congrArg (fun n => place.stem ++ (name ++ "_" ++ n)) hdirect.name
        _ = place.stem ++ memberName name S.template ++ "_" ++ n.declarator.name := by
          simp only [String.append_assoc]
  · obtain ⟨m, hm, rfl⟩ := List.mem_map.mp ho
    have hmname : memberName name m = name ++ "_" ++ m.name := memberName_of_ne (hne m hm)
    have hunder : memberName name x = memberName name m ++ "_" ++ n.declarator.name := by
      rw [hxname, hmname, show x.name = m.name ++ "_" ++ n.declarator.name from hnested.name]
      simp only [String.append_assoc]
    refine ⟨(inValue place name m).form, ?_, hnested.kind, hnested.stem, hunder, ?_⟩
    · exact List.mem_map_of_mem (List.mem_map_of_mem (List.mem_cons_of_mem _ hm))
    · calc place.stem ++ memberName name x
          = place.stem ++ (memberName name m ++ "_" ++ n.declarator.name) := by rw [hunder]
        _ = place.stem ++ memberName name m ++ "_" ++ n.declarator.name := by
          simp only [String.append_assoc]

end Declarator

/-- Every struct of a catalog has its arrays from declarators that stand in it. -/
def Catalog.Sourced (c : Catalog) (notes : List Note) : Prop :=
  ∀ S, Shape.struct S ∈ c → ("" :: S.members.map Slot.name).Nodup →
    Flatword.Sourced c notes (S.name ++ "_") (S.members.map Slot.form)

theorem Declarator.Declares.sourced {d : Declarator} {declared : Declared}
    (hc : ∀ S, Shape.struct S ∈ c → S.Arrayed c) (hsourced : c.Sourced notes)
    (hn : ⟨frame, d, declared⟩ ∈ notes) (h : d.Declares frame c declared)
    (hnodup : (declared.slots.map Slot.asmName).Nodup) :
    Flatword.Sourced c notes frame.shapeStem (declared.slots.map Slot.form) := by
  cases h with
  | word hname hasm harray hstruct => exact sourced_of_kind (by simpa [Slot.form] using harray)
  | struct hS =>
    have hnames := Declarator.nodup_members (hc _ hS) hnodup
    exact Declarator.sourced_instantiate _ _ _ (hc _ hS) (hsourced _ hS hnames) hnames
  | words hdimensions htotal hname hasm hkind hshape hsize hitem helement =>
    intro y hy hk
    rw [List.map_cons] at hy
    rcases List.mem_cons.mp hy with rfl | hy
    · obtain ⟨item, hitem, hword, rfl⟩ := hitem
      refine ⟨_, hn, ⟨_, item, 1, ⟨rfl, ?_, ?_, hitem, hdimensions, ?_, htotal, .inl ⟨hword, rfl⟩⟩⟩,
        .inl ⟨rfl, hname, hasm⟩⟩
      · simp [ArrayShape.ofHeader, hshape, Note.shapeName, hasm]
      · simp [ArrayShape.ofHeader, Slot.form, hshape]
      · simp [ArrayShape.ofHeader, hsize]
    · obtain ⟨z, hz, rfl⟩ := List.mem_map.mp hy
      have hregular : z.form.kind.isRegular = true := (Declarator.mem_cells hz).1 ▸ helement
      simp [hk, Kind.isRegular] at hregular
  | @structs S head header dimensions total hS hdimensions htotal hpos hname hasm hkind hshape hsize
      hitem hhead =>
    subst hhead
    have hnames (i : Nat) (hi : i ∈ List.range ((total - 1) / S.template.size)) :
        ("" :: S.members.map Slot.name).Nodup := by
      have helements := (List.nodup_cons.mp hnodup).2
      rw [List.map_flatMap] at helements
      exact Declarator.nodup_members (hc S hS) ((List.nodup_flatMap.mp helements).1 i hi)
    rw [List.map_cons, List.map_flatMap, ← List.singleton_append]
    refine Flatword.Sourced.append ?_ (.flatMap fun i hi => ?_)
    · intro y hy _
      obtain rfl := List.mem_singleton.mp hy
      refine ⟨_, hn, ⟨_, _, S.template.size, ⟨rfl, ?_, ?_, hitem, hdimensions, ?_, htotal,
        .inr ⟨rfl, S, hS, rfl, rfl⟩⟩⟩, .inl ⟨rfl, hname, hasm⟩⟩
      · simp [ArrayShape.ofHeader, hshape, Note.shapeName, hasm]
      · simp [ArrayShape.ofHeader, Slot.form, hshape]
      · simp [ArrayShape.ofHeader, hsize]
    · exact Declarator.sourced_instantiate _ _ _ (hc S hS) (hsourced S hS (hnames i hi)) (hnames i hi)

theorem Phrase.sourced {tokens : List Token} {c c' : Catalog} {notes new : List Note}
    {slots : List Slot} (hc : ∀ S, Shape.struct S ∈ c → S.Arrayed c) (hsourced : c.Sourced notes)
    (h : Phrase frame tokens c new slots c') (hnodup : (slots.map Slot.asmName).Nodup) :
    Sourced c (notes ++ new) frame.shapeStem (slots.map Slot.form) := by
  rw [h.slots_eq, List.map_flatMap] at hnodup ⊢
  refine .flatMap fun n hn => ?_
  obtain ⟨rfl, -, hdeclares⟩ := h.written n hn
  refine hdeclares.sourced hc (fun S hS hnames => ?_) (List.mem_append_right _ hn)
    ((List.nodup_flatMap.mp hnodup).1 n hn)
  exact (hsourced S hS hnames).mono (fun _ => id) (List.subset_append_left ..)

/-! ## Sessions -/

structure Session.Sourced (notes : List Note) (s : Session) : Prop where
  table : Flatword.Sourced s.catalog notes "" (s.table.slots.map Slot.form)
  structs : s.catalog.Sourced notes

namespace Session

variable {options : Options} {notes : List Note} {s : Session}

theorem sourced_start (h : start options = .ok s) : s.Sourced [] := by
  have hslots := kind_of_start h
  obtain ⟨-, rfl⟩ := start_eq_ok h
  refine ⟨sourced_of_kind fun x hx => ?_, by simp [Catalog.Sourced]⟩
  obtain ⟨y, hy, rfl⟩ := List.mem_map.mp hx
  exact (hslots y hy).2

theorem Accounted.sourced (h : Accounted options notes s) : s.Sourced notes := by
  induction h with
  | start h => exact sourced_start h
  | @phrase notes new s c place tokens slots hs hphrase hnone ih =>
    have hmem := mem_struct_phrase hphrase
    have hnodup := hs.nodup_slots hnone
    rw [Table.append_eq_of_none hnone]
    refine ⟨?_, fun S hS hnames => ?_⟩
    · rw [List.map_append, Table.map_form_placedFrom]
      have hnew := hphrase.sourced hs.arrayed.structs ih.structs hnodup
      have hold := ih.table.mono (fun _ => id) (List.subset_append_left notes new)
      exact (hold.append hnew).mono (fun S => (hmem S).mp) (List.Subset.refl _)
    · exact (ih.structs S ((hmem S).mpr hS) hnames).mono (fun S => (hmem S).mp)
        (List.subset_append_left ..)
  | @struct notes new s c place S members hs hphrase hstem hnew hkind hname hshape hsize ih =>
    have hc := mem_struct_phrase hphrase
    have hmem (S' : StructShape) (hS' : Shape.struct S' ∈ s.catalog) :
        Shape.struct S' ∈ c ++ [.struct S] :=
      List.mem_append_left _ ((hc S').mp hS')
    refine ⟨ih.table.mono hmem (List.subset_append_left ..), fun S' hS' hnames => ?_⟩
    rcases List.mem_append.mp hS' with hS' | hS'
    · exact (ih.structs S' ((hc S').mpr hS') hnames).mono hmem (List.subset_append_left ..)
    · obtain rfl : S' = S := by simpa using hS'
      have hasm : S'.members.map Slot.asmName = S'.members.map Slot.name :=
        List.map_congr_left fun x hx => by simpa [hstem] using hphrase.asmName_eq hx
      have hnodup : (S'.members.map Slot.asmName).Nodup := hasm ▸ (List.nodup_cons.mp hnames).2
      exact (hphrase.sourced hs.arrayed.structs ih.structs hnodup).mono hmem (List.Subset.refl _)

theorem Accounted.findArray?_eq (h : Accounted options notes s) (name : String) :
    s.catalog.findArray? name = (Note.shapes notes).find? (·.name = name) := by
  have harrays (shapes : List ArrayShape) :
      Catalog.findArray? (shapes.map Shape.array) name = shapes.find? (·.name = name) := by
    induction shapes with
    | nil => rfl
    | cons shape rest ih =>
      rw [List.map_cons, List.find?_cons, Catalog.findArray?, List.findSome?_cons, ← ih]
      by_cases hname : shape.name = name <;> simp [hname, Catalog.findArray?]
  have happend (c c' : Catalog) :
      Catalog.findArray? (c ++ c') name = (c.findArray? name).or (Catalog.findArray? c' name) :=
    List.findSome?_append
  induction h with
  | start h =>
    obtain ⟨-, rfl⟩ := Session.start_eq_ok h
    rfl
  | phrase hs hphrase hnone ih =>
    rw [hphrase.catalog_eq, happend, ih, harrays, Note.shapes_append, List.find?_append]
  | struct hs hphrase hstem hnew hkind hname hshape hsize ih =>
    have hstruct (S : StructShape) : Catalog.findArray? [Shape.struct S] name = none := rfl
    rw [hphrase.catalog_eq, happend, happend, ih, harrays, Note.shapes_append, List.find?_append,
      hstruct, Option.or_none]

/-- Every array in a table comes from a declarator of the source, and the shape that is found for it
is the one of this declarator unless an earlier one has a shape of the same name. -/
theorem Defined.array_shape_first_of_name {defined : List (Place × Definition)}
    (h : Defined options defined s) :
    ∃ notes, Accounted options notes s ∧ (∀ n ∈ notes, ∃ d ∈ defined, n.StandsIn d) ∧
      ∀ x ∈ s.table.slots, x.kind = .array → ∃ front n back shape item words,
        notes = front ++ n :: back ∧ n.Describes s.catalog shape item words x ∧
        (n.Names "" x ∨ ∃ o ∈ s.table.slots, n.NamesIn o x) ∧
        x.shape.bind s.catalog.findArray? =
          ((Note.shapes front).find? (·.name = n.shapeName)).or (some shape) := by
  obtain ⟨notes, hnotes, hstands⟩ := h.exists_accounted
  refine ⟨notes, hnotes, hstands, fun x hx hkind => ?_⟩
  obtain ⟨n, hn, ⟨shape, item, words, hd⟩, hnames⟩ :=
    hnotes.sourced.table x.form (List.mem_map_of_mem hx) hkind
  obtain ⟨front, back, rfl⟩ := List.append_of_mem hn
  refine ⟨front, n, back, shape, item, words, rfl, { hd with }, ?_, ?_⟩
  · refine hnames.imp (fun h => ⟨h.stem, h.name, h.asmName⟩) ?_
    rintro ⟨o, ho, h⟩
    obtain ⟨head, hhead, rfl⟩ := List.mem_map.mp ho
    exact ⟨head, hhead, h.kind, h.stem, h.name, h.asmName⟩
  · have hshape : x.shape = some n.shapeName := hd.shape_eq.trans (congrArg some hd.name)
    have hfirst : Note.shapes (n :: back) = shape :: Note.shapes back := by
      simp [Note.shapes, hd.declared]
    rw [hshape, Option.bind_some, hnotes.findArray?_eq, Note.shapes_append, List.find?_append, hfirst,
      List.find?_cons_of_pos (by simpa using hd.name)]

def after? (options : Options) (defined : List (Place × Definition)) : Option Session :=
  (Session.start options).toOption.bind fun s => defined.foldlM (fun s d =>
    (result (Session.define d.1 d.2) s).1.toOption.map fun _ => (result (Session.define d.1 d.2) s).2) s

theorem defined_of_after? {defined : List (Place × Definition)} (h : after? options defined = some s) :
    Defined options defined s := by
  obtain ⟨first, hfirst, hrest⟩ := Option.bind_eq_some_iff.mp h
  have hstart : Defined options [] first := .start (eq_ok_of_toOption hfirst)
  rw [← List.nil_append defined]
  generalize ([] : List (Place × Definition)) = front at hstart ⊢
  clear hfirst h
  -- The definitions that have succeeded so far grow along the list.
  induction defined generalizing first front with
  | nil =>
    obtain rfl : first = s := Option.some.inj hrest
    rwa [List.append_nil]
  | cons d rest ih =>
    rw [List.foldlM_cons] at hrest
    obtain ⟨next, hnext, hrest⟩ := Option.bind_eq_some_iff.mp hrest
    obtain ⟨_, hok, rfl⟩ := Option.map_eq_some_iff.mp hnext
    have hdefine := hstart.define (Prod.ext (eq_ok_of_toOption hok) rfl)
    exact List.append_cons front d rest ▸ ih _ hrest _ hdefine

end Session

/-- A struct `S` with an array `t` of three words, and an array `S_t` of five words. -/
def sharedShapeName : List (Place × Definition) :=
  [(.global, .struct "S" [.keyword "long" 1, .ident "t" 1, .array 3 1] 1),
    (.global, Definition.variables [.keyword "long" 2, .ident "S_t" 2, .array 5 2])]

/-- The array of five words is found with the shape of the member, as one of three words. -/
theorem sharedShapeName_finds_member : ∃ s, Session.Defined {} sharedShapeName s ∧
    ∃ x ∈ s.table.slots, x.kind = .array ∧ ∃ found own item,
      x.shape.bind s.catalog.findArray? = some found ∧ found.dimensions = [3] ∧
      x.item = some item ∧ arrayTotal? 1 own.dimensions = some item.totalSize ∧
      own ≠ found := by
  have hfound : (Session.after? {} sharedShapeName).any fun s => s.table.slots.any fun x =>
      x.kind = .array && (x.shape.bind s.catalog.findArray?).any (·.dimensions = [3]) &&
        x.item.any fun item => item.kind = .long && item.totalSize = 6 := by
    decide +kernel
  obtain ⟨s, hs, hfound⟩ := (Option.any_eq_true _ _).mp hfound
  obtain ⟨x, hx, hfound⟩ := List.any_eq_true.mp hfound
  simp only [Bool.and_eq_true, decide_eq_true_eq] at hfound
  obtain ⟨⟨hkind, hshape⟩, hitem⟩ := hfound
  obtain ⟨found, hshape, hdimensions⟩ := (Option.any_eq_true _ _).mp hshape
  obtain ⟨item, hitem, hword⟩ := (Option.any_eq_true _ _).mp hitem
  simp only [Bool.and_eq_true, decide_eq_true_eq] at hdimensions hword
  have hs := Session.defined_of_after? hs
  obtain ⟨notes, -, -, harrays⟩ := hs.array_shape_first_of_name
  obtain ⟨_, n, _, own, item', words, -, hd, -, -⟩ := harrays x hx hkind
  obtain rfl : item' = item := Option.some.inj (hd.item_eq.symm.trans hitem)
  have htotal : arrayTotal? 1 own.dimensions = some item'.totalSize := by
    rcases hd.element with ⟨-, rfl⟩ | ⟨hstruct, -⟩
    · exact hd.total
    · exact absurd (hword.1.symm.trans hstruct) (by decide)
  refine ⟨s, hs, x, hx, hkind, found, own, item', hshape, hdimensions, hitem, htotal, ?_⟩
  rintro rfl
  rw [hdimensions, hword.2] at htotal
  exact absurd htotal (by decide)

end Flatword
