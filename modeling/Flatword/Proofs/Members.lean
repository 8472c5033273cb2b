import Flatword.Proofs.Phrase

/-!
# Struct values and their members

In every table, the head of a struct value is followed by the members of its struct in order, under
the name of the value, and the header of an array of structs by its elements. So the slot of a member
lies as many words behind the head as the struct says.
-/

namespace Flatword

variable {S : StructShape} {back body front members slots : List Slot} {frame : PhraseFrame}
  {notes : List Note} {template x head : Slot} {tokens : List Token} {c c' : Catalog}

/-! ## Values -/

def Slot.form (x : Slot) : Slot :=
  { name := x.name, asmName := x.asmName, kind := x.kind, type := x.type, item := x.item,
    shape := x.shape }

structure Slot.Carries (head member x : Slot) : Prop where
  name : x.name = head.name ++ "_" ++ member.name
  asmName : x.asmName = head.asmName ++ "_" ++ member.name
  kind : x.kind = member.kind
  type : x.type = member.type
  item : x.item = member.item
  shape : x.shape = member.shape

structure StructShape.Value (S : StructShape) (head : Slot) (body : List Slot) : Prop where
  kind : head.kind = .struct
  shape : head.shape = some S.name
  members : List.Forall₂ head.Carries S.members body

def StructShape.Elements (S : StructShape) (header : Slot) (elements : List (List Slot)) : Prop :=
  ∀ (i : Nat) (element : List Slot), elements[i]? = some element → ∃ head body, element = head :: body ∧
    S.Value head body ∧ head.name = header.name ++ "_" ++ toString i ∧
    head.asmName = header.asmName ++ "_" ++ toString i

/-- What comes after a slot: members after the head of a struct, and elements after the header of an
array of structs. -/
structure Slot.Followed (c : Catalog) (x : Slot) (rest : List Slot) : Prop where
  struct : x.kind = .struct → ∃ S body, Shape.struct S ∈ c ∧ S.Value x body ∧ body <+: rest
  array : ∀ item, x.kind = .array → x.item = some item → item.kind = .struct →
    ∃ S elements, Shape.struct S ∈ c ∧ S.name = item.shape ∧ S.Elements x elements ∧
      elements.flatten <+: rest ∧ S.template.size ≠ 0 ∧
      item.totalSize = elements.length * S.template.size + 1

/-- Every value and every array of structs is followed by what belongs to it. -/
def Arranged (c : Catalog) : List Slot → Prop
  | [] => True
  | x :: rest => x.Followed c rest ∧ Arranged c rest

section Arranged

variable {c c' : Catalog} {S : StructShape} {x head header : Slot} {body slots front back : List Slot}

theorem Slot.Followed.of_kind (hstruct : x.kind ≠ .struct)
    (harray : ∀ item, x.kind = .array → x.item = some item → item.kind ≠ .struct) :
    x.Followed c slots :=
  ⟨fun hk => absurd hk hstruct, fun item hk hitem hkind => absurd hkind (harray item hk hitem)⟩

theorem Slot.Followed.append (h : x.Followed c front) : x.Followed c (front ++ back) where
  struct hk := by
    obtain ⟨S, body, hS, hvalue, hbody⟩ := h.struct hk
    exact ⟨S, body, hS, hvalue, hbody.trans (List.prefix_append ..)⟩
  array item hk hitem hkind := by
    obtain ⟨S, elements, hS, hname, helements, hbody, hsize⟩ := h.array item hk hitem hkind
    exact ⟨S, elements, hS, hname, helements, hbody.trans (List.prefix_append ..), hsize⟩

theorem Slot.Followed.mono (h : x.Followed c slots)
    (hc : ∀ S, Shape.struct S ∈ c → Shape.struct S ∈ c') : x.Followed c' slots where
  struct hk := by
    obtain ⟨S, body, hS, hvalue⟩ := h.struct hk
    exact ⟨S, body, hc S hS, hvalue⟩
  array item hk hitem hkind := by
    obtain ⟨S, elements, hS, helements⟩ := h.array item hk hitem hkind
    exact ⟨S, elements, hc S hS, helements⟩

theorem Arranged.mono (h : Arranged c slots) (hc : ∀ S, Shape.struct S ∈ c → Shape.struct S ∈ c') :
    Arranged c' slots := by
  induction slots with
  | nil => trivial
  | cons x rest ih => exact ⟨h.1.mono hc, ih h.2⟩

theorem Arranged.append (hf : Arranged c front) (hb : Arranged c back) :
    Arranged c (front ++ back) := by
  induction front with
  | nil => exact hb
  | cons x front ih => exact ⟨hf.1.append, ih hf.2⟩

theorem Arranged.flatMap {α : Type} {xs : List α} {g : α → List Slot}
    (h : ∀ x ∈ xs, Arranged c (g x)) : Arranged c (xs.flatMap g) := by
  induction xs with
  | nil => trivial
  | cons x xs ih => exact (h x (by simp)).append (ih fun y hy => h y (by simp [hy]))

theorem arranged_of_kind (h : ∀ x ∈ slots, x.kind ≠ .struct ∧ x.kind ≠ .array) : Arranged c slots := by
  induction slots with
  | nil => trivial
  | cons x rest ih =>
    obtain ⟨hstruct, harray⟩ := h x (by simp)
    exact ⟨.of_kind hstruct fun _ hk => absurd hk harray, ih fun y hy => h y (by simp [hy])⟩

theorem Arranged.followed (h : Arranged c (front ++ x :: back)) : x.Followed c back := by
  induction front with
  | nil => exact h.1
  | cons y front ih => exact ih h.2

theorem Arranged.map {g : Slot → Slot} {all : List Slot} (hslots : slots ⊆ all)
    (hkind : ∀ x, (g x).kind = x.kind) (htype : ∀ x, (g x).type = x.type)
    (hitem : ∀ x, (g x).item = x.item) (hshape : ∀ x, (g x).shape = x.shape)
    (hname : ∀ x ∈ all, ∀ y ∈ all, ∀ rest, y.name = x.name ++ "_" ++ rest →
      y.asmName = x.asmName ++ "_" ++ rest →
      (g y).name = (g x).name ++ "_" ++ rest ∧ (g y).asmName = (g x).asmName ++ "_" ++ rest)
    (h : Arranged c slots) : Arranged c (slots.map g) := by
  have hvalue {S : StructShape} {head : Slot} {body : List Slot} (hhead : head ∈ all) (hbody : body ⊆ all)
      (h : S.Value head body) : S.Value (g head) (body.map g) := by
    refine ⟨(hkind head).trans h.kind, (hshape head).trans h.shape, ?_⟩
    obtain ⟨-, -, hmembers⟩ := h
    generalize S.members = members at hmembers
    induction hmembers with
    | nil => exact .nil
    | @cons member x _ _ hcarries _ ih =>
      obtain ⟨hn, ha⟩ := hname head hhead x (hbody (by simp)) _ hcarries.name hcarries.asmName
      exact .cons ⟨hn, ha, (hkind x).trans hcarries.kind, (htype x).trans hcarries.type,
        (hitem x).trans hcarries.item, (hshape x).trans hcarries.shape⟩
        (ih fun y hy => hbody (by simp [hy]))
  induction slots with
  | nil => trivial
  | cons x rest ih =>
    have hx : x ∈ all := hslots (by simp)
    have hrest : rest ⊆ all := fun y hy => hslots (by simp [hy])
    refine ⟨⟨fun hk => ?_, fun item hk hi hkitem => ?_⟩, ih hrest h.2⟩
    · obtain ⟨S, body, hS, hbody, hstarts⟩ := h.1.struct (hkind x ▸ hk)
      exact ⟨S, body.map g, hS, hvalue hx (fun y hy => hrest (hstarts.subset hy)) hbody,
        hstarts.map g⟩
    · obtain ⟨S, elements, hS, hitemShape, helements, hstarts, hsize⟩ :=
        h.1.array item (hkind x ▸ hk) (hitem x ▸ hi) hkitem
      refine ⟨S, elements.map (List.map g), hS, hitemShape, ?_, ?_, by simpa using hsize⟩
      · intro i element hi
        rw [List.getElem?_map, Option.map_eq_some_iff] at hi
        obtain ⟨element, hi, rfl⟩ := hi
        obtain ⟨head, body, rfl, hbody, hn, ha⟩ := helements i element hi
        have hmem : ∀ y ∈ head :: body, y ∈ all := fun y hy => hrest
          (hstarts.subset (List.mem_flatten.mpr ⟨_, List.mem_of_getElem? hi, hy⟩))
        obtain ⟨hn, ha⟩ := hname x hx head (hmem head (by simp)) _ hn ha
        exact ⟨g head, body.map g, rfl,
          hvalue (hmem head (by simp)) (fun y hy => hmem y (by simp [hy])) hbody, hn, ha⟩
      · rw [← List.map_flatten]
        exact hstarts.map g

end Arranged

/-! ## What declarators give -/

/-- A struct whose values can be laid out: its members go by their names in the source, and they are
arranged unless two of them have the same name. -/
structure StructShape.Arrayed (c : Catalog) (S : StructShape) : Prop where
  kind : S.template.kind = .struct
  unnamed : S.template.name = ""
  shape : S.template.shape = some S.name
  size : S.template.size = wordCount (S.members.map Slot.kind)
  names : ∀ x ∈ S.members, x.asmName = x.name
  arranged : ("" :: S.members.map Slot.name).Nodup → Arranged c (S.members.map Slot.form)

namespace Declarator

variable {name : String} {x : Slot} {c : Catalog} {S : StructShape}

def inValue (place : Place) (name : String) (x : Slot) : Slot :=
  { x with name := memberName name x, asmName := place.stem ++ memberName name x, scope := place.scope }

theorem instantiate_eq (place : Place) (S : StructShape) (name : String) :
    instantiate place S name = (S.template :: S.members).map (inValue place name) :=
  rfl

theorem memberName_of_ne (h : x.name ≠ "") : memberName name x = name ++ "_" ++ x.name :=
  if_neg (by simpa [String.isEmpty_iff] using h)

theorem nodup_members {place : Place} (hS : S.Arrayed c)
    (h : ((instantiate place S name).map Slot.asmName).Nodup) :
    ("" :: S.members.map Slot.name).Nodup := by
  have hnames : (instantiate place S name).map Slot.asmName =
      ("" :: S.members.map Slot.name).map fun n =>
        place.stem ++ if n.isEmpty then name else name ++ "_" ++ n := by
    rw [instantiate_eq, ← hS.unnamed, List.map_cons, List.map_cons, List.map_cons, List.map_map,
      List.map_map]
    rfl
  exact .of_map _ (hnames ▸ h)

theorem value_instantiate (place : Place) (name : String) (hS : S.Arrayed c)
    (hnodup : ("" :: S.members.map Slot.name).Nodup) :
    ∃ head body, (instantiate place S name).map Slot.form = head :: body ∧ S.Value head body ∧
      head.name = name ∧ head.asmName = place.stem ++ name := by
  have hhead : memberName name S.template = name := by simp [memberName, hS.unnamed]
  refine ⟨(inValue place name S.template).form, (S.members.map (inValue place name)).map Slot.form,
    rfl, ⟨hS.kind, hS.shape, ?_⟩, hhead, congrArg (place.stem ++ ·) hhead⟩
  rw [List.map_map, List.forall₂_map_right_iff, List.forall₂_same]
  intro x hx
  have hne : x.name ≠ "" := by
    intro hempty
    exact (List.nodup_cons.mp hnodup).1 (hempty ▸ List.mem_map_of_mem hx)
  have hx : memberName name x = name ++ "_" ++ x.name := memberName_of_ne hne
  refine ⟨?_, ?_, rfl, rfl, rfl, rfl⟩
  · exact hx.trans (congrArg (· ++ "_" ++ x.name) hhead.symm)
  · calc place.stem ++ memberName name x
        = place.stem ++ (memberName name S.template ++ "_" ++ x.name) := by rw [hx, hhead]
      _ = place.stem ++ memberName name S.template ++ "_" ++ x.name := by
        simp only [String.append_assoc]

theorem arranged_instantiate (place : Place) (name : String) (hc : Shape.struct S ∈ c) (hS : S.Arrayed c)
    (hnodup : ("" :: S.members.map Slot.name).Nodup) :
    Arranged c ((instantiate place S name).map Slot.form) := by
  obtain ⟨head, body, heq, hvalue, -, -⟩ := value_instantiate place name hS hnodup
  have hbody : body = (S.members.map Slot.form).map fun x => (inValue place name x).form := by
    have htail := congrArg List.tail heq
    rw [List.tail_cons] at htail
    rw [← htail, instantiate_eq, List.map_cons, List.map_cons, List.tail_cons, List.map_map,
      List.map_map]
    rfl
  rw [heq]
  refine ⟨⟨fun _ => ⟨S, body, hc, hvalue, List.prefix_rfl⟩, fun item hk => ?_⟩, ?_⟩
  · simp [hvalue.kind] at hk
  rw [hbody]
  -- A member that is under another one keeps its place under it, since no name is empty.
  have hne : ∀ x ∈ S.members.map Slot.form, x.name ≠ "" ∧ x.asmName = x.name := by
    intro x hx
    obtain ⟨y, hy, rfl⟩ := List.mem_map.mp hx
    refine ⟨fun hempty => (List.nodup_cons.mp hnodup).1 ?_, hS.names y hy⟩
    exact List.mem_map.mpr ⟨y, hy, hempty⟩
  refine (hS.arranged hnodup).map (List.Subset.refl _) (fun _ => rfl) (fun _ => rfl) (fun _ => rfl)
    (fun _ => rfl) fun x hx y hy rest hyx _ => ?_
  have hnamed : memberName name y = memberName name x ++ "_" ++ rest := by
    rw [memberName_of_ne (hne x hx).1, memberName_of_ne (hne y hy).1, hyx]
    simp only [String.append_assoc]
  refine ⟨hnamed, ?_⟩
  calc place.stem ++ memberName name y
      = place.stem ++ (memberName name x ++ "_" ++ rest) := by rw [hnamed]
    _ = place.stem ++ memberName name x ++ "_" ++ rest := by simp only [String.append_assoc]

variable {d : Declarator} {frame : PhraseFrame} {declared : Declared}

theorem Declares.asmName_eq (h : d.Declares frame c declared) (hx : x ∈ declared.slots) :
    x.asmName = frame.place.stem ++ x.name := by
  cases h with
  | word hname hasm harray hstruct =>
    obtain rfl := List.mem_singleton.mp hx
    rw [hasm, hname]
  | struct hS =>
    obtain ⟨m, -, rfl⟩ := List.mem_map.mp hx
    rfl
  | words hdimensions htotal hname hasm =>
    rcases List.mem_cons.mp hx with rfl | hx
    · rw [hasm, hname]
    · obtain ⟨-, i, hxname, hxasm⟩ := mem_cells hx
      rw [hxasm, hxname, hasm, hname, String.append_assoc, String.append_assoc, String.append_assoc]
  | structs hS hdimensions htotal hpos hname hasm hkind hshape hsize hitem hhead =>
    rcases List.mem_cons.mp hx with rfl | hx
    · rw [hhead, hasm, hname]
    · obtain ⟨i, -, hx⟩ := List.mem_flatMap.mp hx
      obtain ⟨m, -, rfl⟩ := List.mem_map.mp hx
      rfl

theorem elements_instantiate {header : Slot} {count : Nat} (hS : S.Arrayed c)
    (hname : header.name = d.name) (hasm : header.asmName = frame.place.stem ++ d.name)
    (hnodup : count ≠ 0 → ("" :: S.members.map Slot.name).Nodup) :
    S.Elements header ((List.range count).map fun i =>
      (instantiate frame.place S s!"{d.name}_{i}").map Slot.form) := by
  intro i element hi
  rw [List.getElem?_map, Option.map_eq_some_iff] at hi
  obtain ⟨j, hj, rfl⟩ := hi
  obtain ⟨hlt, rfl⟩ := List.getElem?_eq_some_iff.mp hj
  have hcount : count ≠ 0 := Nat.ne_zero_of_lt (List.length_range (n := count) ▸ hlt)
  obtain ⟨head, body, heq, hvalue, hn, ha⟩ :=
    value_instantiate frame.place s!"{d.name}_{(List.range count)[i]}" hS (hnodup hcount)
  refine ⟨head, body, heq, hvalue, ?_, ?_⟩
  · rw [hn, List.getElem_range, hname]
    rfl
  · calc head.asmName = frame.place.stem ++ (d.name ++ "_" ++ toString i) := by
          rw [ha, List.getElem_range]
          rfl
      _ = header.asmName ++ "_" ++ toString i := by rw [hasm]; simp only [String.append_assoc]

theorem Declares.arranged (hc : ∀ S, Shape.struct S ∈ c → S.Arrayed c)
    (h : d.Declares frame c declared) (hnodup : (declared.slots.map Slot.asmName).Nodup) :
    Arranged c (declared.slots.map Slot.form) := by
  cases h with
  | word hname hasm harray hstruct => exact arranged_of_kind (by simpa using ⟨hstruct, harray⟩)
  | struct hS => exact arranged_instantiate _ _ hS (hc _ hS) (nodup_members (hc _ hS) hnodup)
  | words hdimensions htotal hname hasm hkind hshape hsize hitem helement =>
    obtain ⟨item, hitem, hstruct, -⟩ := hitem
    refine ⟨.of_kind (by simp [Slot.form, hkind]) fun other _ hother => ?_, arranged_of_kind fun x hx => ?_⟩
    · obtain rfl : item = other := Option.some.inj (hitem.symm.trans hother)
      exact hstruct
    · obtain ⟨y, hy, rfl⟩ := List.mem_map.mp hx
      have hregular : y.form.kind.isRegular = true := (mem_cells hy).1 ▸ helement
      constructor <;> rintro hk <;> simp [hk, Kind.isRegular] at hregular
  | @structs S head header dimensions total hS hdimensions htotal hpos hname hasm hkind hshape hsize
      hitem hhead =>
    obtain ⟨count, rfl⟩ := arrayTotal?_eq_some htotal
    have hcount : (S.template.size * count + 1 - 1) / S.template.size = count := by
      rw [Nat.add_sub_cancel, Nat.mul_div_cancel_left count (Nat.pos_of_ne_zero hpos)]
    rw [hcount] at hnodup ⊢
    have hnames : count ≠ 0 → ("" :: S.members.map Slot.name).Nodup := by
      intro hne
      have helements := (List.nodup_cons.mp hnodup).2
      rw [List.map_flatMap] at helements
      have hzero : 0 ∈ List.range count := List.mem_range.mpr (Nat.pos_of_ne_zero hne)
      exact nodup_members (hc S hS) ((List.nodup_flatMap.mp helements).1 0 hzero)
    rw [List.map_cons, List.map_flatMap]
    refine ⟨⟨fun hk => ?_, fun item _ hi hkitem => ?_⟩, .flatMap fun i hi => ?_⟩
    · simp [Slot.form, hhead, hkind] at hk
    · have hheader : head.form.item = header.item := by rw [hhead]; rfl
      obtain rfl := Option.some.inj ((hitem.symm.trans hheader.symm).trans hi)
      have hheadName : head.form.name = d.name := by rw [hhead]; exact hname
      have hheadAsm : head.form.asmName = frame.place.stem ++ d.name := by rw [hhead]; exact hasm
      refine ⟨S, _, hS, rfl, elements_instantiate (hc S hS) hheadName hheadAsm hnames, ?_, hpos, ?_⟩
      · exact List.flatMap_def ▸ List.prefix_rfl
      · rw [List.length_map, List.length_range, Nat.mul_comm]
    · have hne : count ≠ 0 := Nat.ne_zero_of_lt (List.mem_range.mp hi)
      exact arranged_instantiate _ _ hS (hc S hS) (hnames hne)

end Declarator

theorem Phrase.arranged (hc : ∀ S, Shape.struct S ∈ c → S.Arrayed c)
    (h : Phrase frame tokens c notes slots c') (hnodup : (slots.map Slot.asmName).Nodup) :
    Arranged c (slots.map Slot.form) := by
  rw [h.slots_eq, List.map_flatMap] at hnodup ⊢
  exact .flatMap fun n hn => (h.written n hn).2.2.arranged hc ((List.nodup_flatMap.mp hnodup).1 n hn)

theorem Phrase.asmName_eq (h : Phrase frame tokens c notes slots c') (hx : x ∈ slots) :
    x.asmName = frame.place.stem ++ x.name := by
  rw [h.slots_eq] at hx
  obtain ⟨n, hn, hx⟩ := List.mem_flatMap.mp hx
  exact (h.written n hn).2.2.asmName_eq hx

/-! ## Sessions -/

namespace Catalog

variable {c : Catalog}

def Separate (c : Catalog) : Prop :=
  ∀ S, Shape.struct S ∈ c → c.findStructExact? S.name = some S

theorem findStructExact?_append (c c' : Catalog) (name : String) :
    findStructExact? (c ++ c') name = (c.findStructExact? name).or (findStructExact? c' name) :=
  List.findSome?_append

theorem findStructExact?_arrays (shapes : List ArrayShape) (name : String) :
    findStructExact? (shapes.map Shape.array) name = none := by
  simp [findStructExact?, List.findSome?_map]

theorem mem_struct_append_arrays {S : StructShape} {shapes : List ArrayShape} :
    Shape.struct S ∈ c ++ shapes.map Shape.array ↔ Shape.struct S ∈ c := by
  simp

theorem Separate.append_arrays (h : c.Separate) (shapes : List ArrayShape) :
    Separate (c ++ shapes.map Shape.array) := by
  intro S hS
  rw [findStructExact?_append, h S (mem_struct_append_arrays.mp hS), Option.some_or]

theorem Separate.append_struct {S : StructShape} (h : c.Separate)
    (hnew : c.findStructExact? S.name = none) : Separate (c ++ [.struct S]) := by
  intro S' hS'
  rw [findStructExact?_append]
  rcases List.mem_append.mp hS' with hS' | hS'
  · rw [h S' hS', Option.some_or]
  · obtain rfl : S' = S := by simpa using hS'
    rw [hnew, Option.none_or]
    simp [findStructExact?]

end Catalog

structure Session.Arrayed (s : Session) : Prop where
  table : Arranged s.catalog (s.table.slots.map Slot.form)
  structs : ∀ S, Shape.struct S ∈ s.catalog → S.Arrayed s.catalog
  separate : s.catalog.Separate

theorem StructShape.Arrayed.mono (h : S.Arrayed c) (hc : ∀ S, Shape.struct S ∈ c → Shape.struct S ∈ c') :
    S.Arrayed c' :=
  { h with arranged := fun hnodup => (h.arranged hnodup).mono hc }

theorem Table.map_form_placedFrom (first : Nat) (slots : List Slot) :
    (Table.placedFrom first slots).map Slot.form = slots.map Slot.form := by
  induction slots generalizing first with
  | nil => rfl
  | cons x rest ih => exact congrArg (x.form :: ·) (ih _)

namespace Session

variable {options : Options} {notes : List Note} {s : Session}

theorem arrayed_start (h : start options = .ok s) : s.Arrayed := by
  have hslots := kind_of_start h
  obtain ⟨-, rfl⟩ := start_eq_ok h
  refine ⟨arranged_of_kind ?_, by simp, by simp [Catalog.Separate]⟩
  intro x hx
  obtain ⟨y, hy, rfl⟩ := List.mem_map.mp hx
  exact hslots y hy

theorem Accounted.laidOut (h : Accounted options notes s) : s.table.LaidOut := by
  induction h with
  | start h => exact (laid_start h).table.layout
  | phrase hs hphrase hnone ih => exact ih.append _
  | struct hs hphrase hstem hnew hkind hname hshape hsize ih => exact ih

theorem Accounted.nodup_slots (h : Accounted options notes s) {slots : List Slot}
    (hnone : (s.table.append slots).2 = none) : (slots.map Slot.asmName).Nodup := by
  have hnames := (h.laidOut.append slots).names
  have hplaced := congrArg (List.map Slot.asmName) (Table.map_form_placedFrom s.table.next slots)
  rw [List.map_map, List.map_map] at hplaced
  rw [Table.append_eq_of_none hnone, List.map_append] at hnames
  exact hplaced ▸ hnames.of_append_right

theorem mem_struct_phrase {frame : PhraseFrame} {tokens : List Token} {c c' : Catalog} {slots : List Slot}
    (h : Phrase frame tokens c notes slots c') (S : StructShape) :
    Shape.struct S ∈ c ↔ Shape.struct S ∈ c' := by
  rw [h.catalog_eq, Catalog.mem_struct_append_arrays]

theorem Accounted.arrayed (h : Accounted options notes s) : s.Arrayed := by
  induction h with
  | start h => exact arrayed_start h
  | @phrase notes new s c place tokens slots hs hphrase hnone ih =>
    have hmem := mem_struct_phrase hphrase
    have hnodup := hs.nodup_slots hnone
    rw [Table.append_eq_of_none hnone]
    refine ⟨?_, fun S hS => ?_, ?_⟩
    · rw [List.map_append, Table.map_form_placedFrom]
      exact (ih.table.append (hphrase.arranged ih.structs hnodup)).mono fun S => (hmem S).mp
    · exact (ih.structs S ((hmem S).mpr hS)).mono fun S => (hmem S).mp
    · exact hphrase.catalog_eq ▸ ih.separate.append_arrays _
  | @struct notes new s c place S members hs hphrase hstem hnew hkind hname hshape hsize ih =>
    have hc := mem_struct_phrase hphrase
    have hmem (S' : StructShape) (hS' : Shape.struct S' ∈ s.catalog) :
        Shape.struct S' ∈ c ++ [.struct S] :=
      List.mem_append_left _ ((hc S').mp hS')
    have hnames : ∀ x ∈ S.members, x.asmName = x.name := by
      intro x hx
      simpa [hstem] using hphrase.asmName_eq hx
    refine ⟨ih.table.mono hmem, fun S' hS' => ?_, ?_⟩
    · rcases List.mem_append.mp hS' with hS' | hS'
      · exact (ih.structs S' ((hc S').mpr hS')).mono hmem
      · obtain rfl : S' = S := by simpa using hS'
        refine ⟨hkind, hname, hshape, hsize, hnames, fun hnodup => ?_⟩
        refine (hphrase.arranged ih.structs ?_).mono hmem
        rw [List.map_congr_left hnames]
        exact (List.nodup_cons.mp hnodup).2
    · refine (hphrase.catalog_eq ▸ ih.separate.append_arrays _).append_struct ?_
      rw [hphrase.catalog_eq, Catalog.findStructExact?_append, Catalog.findStructExact?_arrays,
        Option.or_none]
      simpa [Catalog.findStruct?] using hnew

end Session

/-! ## Where members and elements are -/

theorem StructShape.findMember?_eq_some {name : String} {first distance : Nat}
    (h : findMember? name first members = some (distance, template)) :
    ∃ front back, members = front ++ template :: back ∧ template.name = name ∧
      distance = first + wordCount (front.map Slot.kind) := by
  induction members generalizing first with
  | nil => simp [findMember?] at h
  | cons m rest ih =>
    rw [findMember?] at h
    split at h
    · next hname =>
      obtain ⟨rfl, rfl⟩ := Prod.mk.inj (Option.some.inj h)
      exact ⟨[], rest, rfl, hname, rfl⟩
    · obtain ⟨front, back, rfl, hname, rfl⟩ := ih h
      refine ⟨m :: front, back, rfl, hname, ?_⟩
      rw [List.map_cons, wordCount_cons, Nat.add_assoc]

namespace Table

variable {t : Table}

theorem LaidOut.findAsm?_eq_some (h : t.LaidOut) {x : Slot} (hx : x ∈ t.slots) :
    t.findAsm? x.asmName = some x := by
  obtain ⟨front, back, hsplit⟩ := List.append_of_mem hx
  have hnames := h.names
  rw [hsplit, List.map_append, List.map_cons, List.nodup_append] at hnames
  refine List.find?_eq_some_iff_append.mpr ⟨by simp, front, back, hsplit, fun y hy => ?_⟩
  have hne := hnames.2.2 y.asmName (List.mem_map_of_mem hy) x.asmName (by simp)
  simpa using hne

theorem LaidOut.address_eq (h : t.LaidOut) {front back : List Slot} {x : Slot}
    (hsplit : t.slots = front ++ x :: back) :
    x.address = some (wordCount (front.map Slot.kind)) := by
  have hlt : front.length < t.slots.length := by simp [hsplit]
  have hget := h.address_getElem hlt
  simpa [hsplit] using hget

theorem LaidOut.address_behind (h : t.LaidOut) {front mid back : List Slot} {x y : Slot} {a : Nat}
    (hsplit : t.slots = front ++ x :: (mid ++ y :: back)) (hx : x.address = some a) :
    y.address = some (a + x.kind.width + wordCount (mid.map Slot.kind)) := by
  obtain rfl := Option.some.inj ((h.address_eq hsplit).symm.trans hx)
  have hy : y.address = some (wordCount ((front ++ x :: mid).map Slot.kind)) :=
    h.address_eq (hsplit.trans (List.append_assoc front (x :: mid) (y :: back)).symm)
  rw [hy, List.map_append, List.map_cons, wordCount_append, wordCount_cons, Nat.add_assoc]

end Table

theorem exists_of_starts {front back rest : List Slot} (h : front ++ x :: back <+: rest.map Slot.form) :
    ∃ mid y later, rest = mid ++ y :: later ∧ mid.map Slot.form = front ∧ y.form = x := by
  obtain ⟨more, hmore⟩ := h
  rw [List.append_assoc, List.cons_append] at hmore
  obtain ⟨mid, tail, rfl, hmid, htail⟩ := List.map_eq_append_iff.mp hmore.symm
  obtain ⟨y, later, rfl, hy, -⟩ := List.map_eq_cons_iff.mp htail
  exact ⟨mid, y, later, rfl, hmid, hy⟩

theorem map_kind_of_map_form {slots forms : List Slot} (h : slots.map Slot.form = forms) :
    slots.map Slot.kind = forms.map Slot.kind := by
  rw [← h, List.map_map]
  rfl

theorem map_kind_of_carries (h : List.Forall₂ head.Carries members body) :
    body.map Slot.kind = members.map Slot.kind := by
  induction h with
  | nil => rfl
  | cons hcarries _ ih => rw [List.map_cons, List.map_cons, ih, hcarries.kind]

theorem exists_of_carries {head template : Slot}
    (h : List.Forall₂ head.Carries (front ++ template :: back) body) :
    ∃ bodyFront x bodyBack, body = bodyFront ++ x :: bodyBack ∧ head.Carries template x ∧
      bodyFront.map Slot.kind = front.map Slot.kind := by
  induction front generalizing body with
  | nil =>
    obtain ⟨x, rest, hcarries, -, rfl⟩ := List.forall₂_cons_left_iff.mp h
    exact ⟨[], x, rest, rfl, hcarries, rfl⟩
  | cons m front ih =>
    obtain ⟨y, rest, hy, hrest, rfl⟩ := List.forall₂_cons_left_iff.mp h
    obtain ⟨bodyFront, x, bodyBack, rfl, hcarries, hkinds⟩ := ih hrest
    exact ⟨y :: bodyFront, x, bodyBack, rfl, hcarries, by rw [List.map_cons, List.map_cons, hkinds, hy.kind]⟩

theorem StructShape.Value.wordCount_eq (hS : S.Arrayed c) (h : S.Value head body) :
    wordCount ((head :: body).map Slot.kind) = S.template.size := by
  rw [List.map_cons, wordCount_cons, h.kind, map_kind_of_carries h.members, hS.size]
  exact Nat.zero_add _

theorem wordCount_flatten {elements : List (List Slot)} {size : Nat}
    (h : ∀ element ∈ elements, wordCount (element.map Slot.kind) = size) :
    wordCount (elements.flatten.map Slot.kind) = elements.length * size := by
  induction elements with
  | nil => simp
  | cons element rest ih =>
    rw [List.flatten_cons, List.map_append, wordCount_append, h element (by simp),
      ih fun e he => h e (by simp [he]), List.length_cons, Nat.succ_mul, Nat.add_comm]

namespace Session.Arrayed

variable {s : Session}

theorem exists_member (hs : s.Arrayed) (hlayout : s.table.LaidOut) {o : Slot} (ho : o ∈ s.table.slots)
    (hkind : o.kind = .struct) :
    ∃ S a, o.shape = some S.name ∧ Shape.struct S ∈ s.catalog ∧ o.address = some a ∧
      ∀ {name : String} {distance : Nat} {template : Slot},
        S.member? name = some (distance, template) →
        ∃ x ∈ s.table.slots, o.Carries template x ∧ template.name = name ∧
          x.address = some (a + distance) := by
  obtain ⟨front, back, hsplit⟩ := List.append_of_mem ho
  have harranged := hs.table
  rw [hsplit, List.map_append, List.map_cons] at harranged
  obtain ⟨S, body, hS, hvalue, hbody⟩ := harranged.followed.struct hkind
  have haddress := hlayout.address_eq hsplit
  refine ⟨S, _, hvalue.shape, hS, haddress, fun {name distance template} hmember => ?_⟩
  obtain ⟨memberFront, memberBack, hmembers, hname, rfl⟩ := StructShape.findMember?_eq_some hmember
  obtain ⟨bodyFront, form, bodyBack, rfl, hcarries, hkinds⟩ := exists_of_carries (hmembers ▸ hvalue.members)
  obtain ⟨mid, x, later, rfl, hmid, rfl⟩ := exists_of_starts hbody
  refine ⟨x, by simp [hsplit], ⟨hcarries.name, hcarries.asmName, hcarries.kind, hcarries.type,
    hcarries.item, hcarries.shape⟩, hname, ?_⟩
  rw [hlayout.address_behind hsplit haddress, hkind, map_kind_of_map_form hmid, hkinds, Nat.zero_add]
  rfl

theorem exists_element (hs : s.Arrayed) (hlayout : s.table.LaidOut) {array : Slot} {item : ArrayItem}
    (harray : array ∈ s.table.slots) (hkind : array.kind = .array) (hitem : array.item = some item)
    (hstruct : item.kind = .struct) :
    ∃ S a count, S.name = item.shape ∧ Shape.struct S ∈ s.catalog ∧ array.address = some a ∧
      S.template.size ≠ 0 ∧ item.totalSize = count * S.template.size + 1 ∧
      ∀ i < count, ∃ o ∈ s.table.slots, o.kind = .struct ∧ o.shape = some S.name ∧
        o.asmName = array.asmName ++ "_" ++ toString i ∧
        o.address = some (a + 1 + i * S.template.size) := by
  obtain ⟨front, back, hsplit⟩ := List.append_of_mem harray
  have harranged := hs.table
  rw [hsplit, List.map_append, List.map_cons] at harranged
  obtain ⟨S, elements, hS, hname, helements, hstarts, hpos, htotal⟩ :=
    harranged.followed.array item hkind hitem hstruct
  have haddress := hlayout.address_eq hsplit
  refine ⟨S, _, elements.length, hname, hS, haddress, hpos, htotal, fun i hi => ?_⟩
  obtain ⟨head, body, hi', hvalue, -, hasm⟩ := helements i _ (List.getElem?_eq_getElem hi)
  -- The elements before the one at `i` take as many words each as the struct has.
  have hwords : wordCount ((elements.take i).flatten.map Slot.kind) = i * S.template.size := by
    have hall : ∀ element ∈ elements.take i, wordCount (element.map Slot.kind) = S.template.size := by
      intro element helement
      obtain ⟨j, hj⟩ := List.getElem?_of_mem (List.mem_of_mem_take helement)
      obtain ⟨head, body, rfl, hvalue, -⟩ := helements j element hj
      exact hvalue.wordCount_eq (hs.structs S hS)
    rw [wordCount_flatten hall, List.length_take_of_le (Nat.le_of_lt hi)]
  have hparts : elements.flatten =
      (elements.take i).flatten ++ head :: (body ++ (elements.drop (i + 1)).flatten) := by
    conv_lhs => rw [← List.take_append_drop i elements, List.drop_eq_getElem_cons hi, hi']
    rw [List.flatten_append, List.flatten_cons, List.cons_append]
  rw [hparts] at hstarts
  obtain ⟨mid, o, later, rfl, hmid, rfl⟩ := exists_of_starts hstarts
  refine ⟨o, by simp [hsplit], hvalue.kind, hvalue.shape, hasm, ?_⟩
  rw [hlayout.address_behind hsplit haddress, hkind, map_kind_of_map_form hmid, hwords]
  rfl

end Session.Arrayed

end Flatword
