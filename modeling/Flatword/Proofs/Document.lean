import Flatword.Source.Json

/-!
# Programs are read back

`Sparse` relates a document to one in which fields are left out that are at their defaults, in any record
inside it. A program is read back from what is written for it, and from every such document.
-/

namespace Flatword

open Json

/-! ## Documents with fields left out -/

inductive RecordKind where
  | token | access | expr | stmt | pragma | function | program

inductive Content where
  | plain
  | one (k : RecordKind)
  | many (k : RecordKind)

namespace RecordKind

def content : RecordKind → (key : String) → Content
  | access, "index" | expr, "operand" | expr, "left" | expr, "right" | expr, "target" | expr, "value"
  | stmt, "expr" | stmt, "condition" | stmt, "init" | stmt, "step" | stmt, "value" => .one expr
  | token, "params" | stmt, "tokens" | stmt, "members" | function, "arguments" => .many token
  | expr, "modifiers" => .many access
  | expr, "args" => .many expr
  | stmt, "then_branch" | stmt, "else_branch" | stmt, "body" | function, "body" | program, "global" => .many stmt
  | program, "pragmas" => .many pragma
  | program, "functions" => .many function
  | _, _ => .plain

/-- The value of a field that may be left out. For two keys it depends on the tag of the record. -/
def default? : RecordKind → (key : String) → (tag : Option Json) → Option Json
  | token, "params", _ | expr, "modifiers", _ | expr, "args", _ | function, "arguments", _
  | function, "body", _ | program, "pragmas", _ | program, "global", _ | program, "functions", _
  | program, "sourceLines", _ => some (.arr [])
  | token, "extValue", _ | pragma, "value", _ => some (.str "")
  | expr, "fixed", _ => some (.bool false)
  | expr, "op", some (.str "assign") | stmt, "condition", some (.str "for") | stmt, "else_branch", _
  | stmt, "init", _ | stmt, "step", _ | stmt, "value", _ => some .null
  | _, _, _ => none

end RecordKind

mutual

/-- A record, and the same one where fields at their defaults are left out, in itself or in the records
that it holds. The order of the fields does not matter. -/
inductive Sparse : RecordKind → Json → Json → Prop
  | same {k} (j : Json) : Sparse k j j
  | record {k o o'} (ho : (o.map (·.1)).Nodup) (ho' : (o'.map (·.1)).Nodup)
      (h : ∀ key, SparseField k (o.lookup "type") key (o.lookup key) (o'.lookup key)) : Sparse k (.obj o) (.obj o')

inductive SparseField : RecordKind → (tag : Option Json) → (key : String) → Option Json → Option Json → Prop
  | same {k tag key} (f : Option Json) : SparseField k tag key f f
  | leftOut {k tag key j} (h : k.default? key tag = some j) :
      SparseField k tag key (some j) none
  | one {k q tag key j j'} (hq : k.content key = .one q)
      (h : Sparse q j j') : SparseField k tag key (some j) (some j')
  | many {k q tag key items items'}
      (hq : k.content key = .many q) (h : SparseItems q items items') :
      SparseField k tag key (some (.arr items)) (some (.arr items'))

inductive SparseItems : RecordKind → List Json → List Json → Prop
  | nil {k} : SparseItems k [] []
  | cons {k j j' items items'} (h : Sparse k j j')
      (ht : SparseItems k items items') : SparseItems k (j :: items) (j' :: items')

end

theorem SparseItems.refl {k : RecordKind} (items : List Json) : SparseItems k items items := by
  induction items with
  | nil => exact .nil
  | cons j items ih => exact .cons (.same j) ih

/-! ## Fields -/

namespace Json

variable {o : List (String × Json)} {key : String} {j : Json} {n : Nat}

theorem depth_succ {m : Nat} (h : m + 1 ≤ n) : ∃ l, n = l + 1 :=
  ⟨n - 1, by omega⟩

theorem mem_valuesOf : j ∈ valuesOf o key ↔ (key, j) ∈ o := by
  simp [valuesOf]

theorem valuesOf_eq_lookup (h : (o.map (·.1)).Nodup) : valuesOf o key = (o.lookup key).toList := by
  induction o with
  | nil => rfl
  | cons entry o ih =>
    obtain ⟨key', j⟩ := entry
    rw [List.map_cons, List.nodup_cons] at h
    by_cases hkey : key' = key
    · subst hkey
      have hnone : valuesOf o key' = [] :=
        List.eq_nil_iff_forall_not_mem.mpr fun _ hv => h.1 (List.mem_map.mpr ⟨_, mem_valuesOf.mp hv, rfl⟩)
      rw [List.lookup_cons_self, valuesOf, List.filter_cons_of_pos (by simp), List.map_cons]
      exact congrArg (j :: ·) hnone
    · have hlookup : List.lookup key ((key', j) :: o) = o.lookup key := by
        rw [List.lookup_cons, beq_false_of_ne (Ne.symm hkey)]
      rw [hlookup, ← ih h.2, valuesOf, List.filter_cons_of_neg (by simpa using hkey), valuesOf]

theorem fields?_eq_lookup (h : (o.map (·.1)).Nodup) (keys : List String) :
    (obj o).fields? keys = some (keys.map (List.lookup · o)) := by
  rw [fields?]
  induction keys with
  | nil => rfl
  | cons key keys ih =>
    rw [List.mapM_cons, ih, valuesOf_eq_lookup h, List.map_cons]
    cases o.lookup key <;> rfl

theorem depth_lookup (h : (o.map (·.1)).Nodup) (hn : (obj o).depth ≤ n + 1) (hj : o.lookup key = some j) :
    j.depth ≤ n := by
  refine Nat.le_trans ?_ (Nat.le_of_succ_le_succ hn)
  have hmem : (key, j) ∈ o := mem_valuesOf.mp (by simp [valuesOf_eq_lookup h, hj])
  clear h hn hj
  induction o with
  | nil => cases hmem
  | cons entry o ih =>
    rw [depthEntries]
    rcases List.mem_cons.mp hmem with rfl | hmem
    · exact Nat.le_max_left ..
    · exact Nat.le_trans (ih hmem) (Nat.le_max_right ..)

end Json

/-- A reader gives one value for all records that a record is related to. -/
def ReadsBack {α : Type} (n : Nat) (k : RecordKind) (j : Json) (read : Json → Option α) (a : α) : Prop :=
  ∀ j', Sparse k j j' → j'.depth ≤ n → read j' = some a

def ReadsBackItems {α : Type} (n : Nat) (k : RecordKind) (items : List Json) (read : Json → Option α) (as : List α) :
    Prop :=
  ∀ items', SparseItems k items items' → depthItems items' ≤ n → items'.mapM read = some as

structure Entry (n : Nat) (k : RecordKind) (tag : Option Json) (key : String) (f f' : Option Json) : Prop where
  sparse : SparseField k tag key f f'
  depth : ∀ j ∈ f', j.depth ≤ n

section

variable {α : Type} {n : Nat} {k q : RecordKind} {tag f : Option Json} {key : String} {j : Json} {items : List Json}
  {read : Json → Option α} {a : α} {as : List α}

theorem Entry.plain (h : Entry n k tag key (some j) f) (hc : k.content key = .plain)
    (hd : k.default? key tag = none) : f = some j := by
  obtain ⟨_ | hj | ⟨hq, -⟩ | ⟨hq, -⟩, -⟩ := h
  · rfl
  · cases hd.symm.trans hj
  · cases hc.symm.trans hq
  · cases hc.symm.trans hq

theorem Entry.spared {d : Json} (h : Entry n k tag key (some j) f) (read : Option Json → Option α)
    (hc : k.content key = .plain) (hd : k.default? key tag = some d) (habsent : read (some d) = read none) :
    read f = read (some j) := by
  obtain ⟨_ | hj | ⟨hq, -⟩ | ⟨hq, -⟩, -⟩ := h
  · rfl
  · obtain rfl := Option.some.inj (hd.symm.trans hj)
    exact habsent.symm
  · cases hc.symm.trans hq
  · cases hc.symm.trans hq

theorem Entry.record (h : Entry n k tag key (some j) f) (hc : k.content key = .one q) :
    (∃ v, f = some v ∧ Sparse q j v ∧ v.depth ≤ n) ∨ f = none ∧ k.default? key tag = some j := by
  obtain ⟨_ | hj | ⟨hq, hj⟩ | ⟨hq, -⟩, hn⟩ := h
  · exact .inl ⟨j, rfl, .same j, hn j rfl⟩
  · exact .inr ⟨rfl, hj⟩
  · obtain rfl := Content.one.inj (hc.symm.trans hq)
    exact .inl ⟨_, rfl, hj, hn _ rfl⟩
  · cases hc.symm.trans hq

theorem Entry.array (h : Entry n k tag key (some (arr items)) f) (hc : k.content key = .many q) :
    (∃ items', f = some (arr items') ∧ SparseItems q items items' ∧ (arr items').depth ≤ n) ∨
      f = none ∧ k.default? key tag = some (arr items) := by
  obtain ⟨_ | hj | ⟨hq, -⟩ | ⟨hq, hitems⟩, hn⟩ := h
  · exact .inl ⟨items, rfl, .refl items, hn _ rfl⟩
  · exact .inr ⟨rfl, hj⟩
  · cases hc.symm.trans hq
  · obtain rfl := Content.many.inj (hc.symm.trans hq)
    exact .inl ⟨_, rfl, hitems, hn _ rfl⟩

theorem Entry.one (h : Entry n k tag key (some j) f) (hread : ReadsBack n q j read a) (hc : k.content key = .one q)
    (hd : k.default? key tag = none) : required read f = some a := by
  obtain ⟨v, rfl, hv, hn⟩ | ⟨-, hj⟩ := h.record hc
  · exact hread v hv hn
  · cases hd.symm.trans hj

theorem Entry.null (h : Entry n k tag key (some .null) f) : optional read f = some none := by
  obtain ⟨_ | _ | ⟨-, _ | _⟩ | _, -⟩ := h <;> rfl

theorem optional_some (hj : read j = some a) (hnull : read .null = none) : optional read (some j) = some (some a) := by
  cases j with
  | null => cases hj.symm.trans hnull
  | _ => exact congrArg (Option.map some) hj

theorem Entry.optional {write : α → Json} {value : Option α} (h : Entry n k tag key (some (.ofOption write value)) f)
    (hread : ∀ a, ReadsBack n q (write a) read a) (hnull : read .null = none) (hc : k.content key = .one q)
    (hd : k.default? key tag = some .null) : Json.optional read f = some value := by
  cases value with
  | none => exact h.null
  | some a =>
    obtain ⟨v, rfl, hv, hn⟩ | ⟨-, hj⟩ := h.record hc
    · exact optional_some (hread a v hv hn) hnull
    · have hwrite : write a = .null := Option.some.inj (hj.symm.trans hd)
      have hread := hread a _ (.same _) (hwrite ▸ Nat.zero_le n)
      cases hread.symm.trans (hwrite ▸ hnull)

theorem Entry.many (h : Entry n k tag key (some (arr items)) f) (hread : ReadsBackItems n q items read as)
    (hc : k.content key = .many q) (hd : k.default? key tag = none) : required (list? read) f = some as := by
  obtain ⟨items', rfl, hitems, hn⟩ | ⟨-, hj⟩ := h.array hc
  · exact hread items' hitems (Nat.le_of_succ_le hn)
  · cases hd.symm.trans hj

theorem Entry.list (h : Entry n k tag key (some (arr items)) f) (hread : ReadsBackItems n q items read as)
    (hc : k.content key = .many q) (hd : k.default? key tag = some (arr [])) :
    withDefault [] (list? read) f = some as := by
  obtain ⟨items', rfl, hitems, hn⟩ | ⟨rfl, hj⟩ := h.array hc
  · exact hread items' hitems (Nat.le_of_succ_le hn)
  · obtain rfl := Json.arr.inj (Option.some.inj (hd.symm.trans hj))
    exact hread [] .nil (Nat.zero_le n)

theorem ReadsBackItems.nil : ReadsBackItems n q [] read [] := by
  rintro _ (_ | _) -
  rfl

theorem ReadsBackItems.cons (h : ReadsBack n q j read a) (ht : ReadsBackItems n q items read as) :
    ReadsBackItems n q (j :: items) read (a :: as) := by
  rintro _ (_ | ⟨hj, hitems⟩) hn
  have ha := h _ hj (Nat.le_trans (Nat.le_max_left ..) hn)
  have has := ht _ hitems (Nat.le_trans (Nat.le_max_right ..) hn)
  simp [ha, has]

theorem ReadsBackItems.map {write : α → Json} (h : ∀ a, ReadsBack n q (write a) read a) (as : List α) :
    ReadsBackItems n q (as.map write) read as := by
  induction as with
  | nil => exact .nil
  | cons a as ih => exact .cons (h a) ih

theorem RecordKind.type_plain (k : RecordKind) (tag : Option Json) :
    k.content "type" = .plain ∧ k.default? "type" tag = none := by
  cases k <;> exact ⟨rfl, rfl⟩

theorem Sparse.fields {o : List (String × Json)} (h : Sparse k (obj o) j) (ho : (o.map (·.1)).Nodup)
    (hn : j.depth ≤ n) : ∃ m o', n = m + 1 ∧ j = obj o' ∧
      (∀ name, o.lookup "type" = some (str name) → ∀ names spelling,
        (obj o').form? names spelling = some (name, obj o')) ∧
      (∀ keys, (obj o').fields? keys = some (keys.map (List.lookup · o'))) ∧
      ∀ key, Entry m k (o.lookup "type") key (o.lookup key) (o'.lookup key) := by
  obtain ⟨o', rfl, ho', hf⟩ : ∃ o', j = obj o' ∧ (o'.map (·.1)).Nodup ∧
      ∀ key, SparseField k (o.lookup "type") key (o.lookup key) (o'.lookup key) := by
    cases h with
    | same => exact ⟨o, rfl, ho, fun key => .same _⟩
    | record _ ho' hf => exact ⟨_, rfl, ho', hf⟩
  obtain ⟨m, rfl⟩ := depth_succ hn
  have hf (key : String) : Entry m k (o.lookup "type") key (o.lookup key) (o'.lookup key) :=
    ⟨hf key, fun _ hv => depth_lookup ho' hn hv⟩
  refine ⟨m, o', rfl, rfl, fun name hname names spelling => ?_, fields?_eq_lookup ho', hf⟩
  have htype : o'.lookup "type" = some (str name) :=
    (hname ▸ hf "type").plain (k.type_plain none).1 (k.type_plain _).2
  simp [form?, valuesOf_eq_lookup ho', htype, formName?]

end

/-! ## Words -/

namespace Json

variable {α : Type} {read : Json → Option α} {j : Json}

@[simp]
theorem required_some : required read (some j) = read j :=
  rfl

@[simp]
theorem withDefault_some {absent : α} : withDefault absent read (some j) = read j :=
  rfl

@[simp]
theorem str?_str (s : String) : (str s).str? = some s :=
  rfl

theorem list?_map_str (lines : List String) : (arr (lines.map str)).list? str? = some lines := by
  rw [list?]
  induction lines with
  | nil => rfl
  | cons line lines ih => simp [ih]

@[simp]
theorem bool?_bool (b : Bool) : (Json.bool b).bool? = some b :=
  rfl

@[simp]
theorem uint32?_ofLine (line : Line) : (ofLine line).uint32? = some line := by
  have h : (ofLine line).nat? UInt32.size = some line.toNat := if_pos line.toNat_lt
  rw [uint32?, h, Option.map_some, UInt32.ofNat_toNat]

end Json

@[simp]
theorem TokenKind.read?_toJson (spelling : Json.Spelling) (depth : Nat) (k : TokenKind) :
    within depth (read? spelling) k.toJson = some k := by
  cases depth <;> cases k <;> rfl

@[simp]
theorem ValueType.ofJson?_toJson (t : ValueType) : ofJson? t.toJson = some t := by
  cases t <;> rfl

@[simp]
theorem BinaryOp.read?_toJson (op : BinaryOp) : read? .loose op.toJson = some op := by
  cases op <;> rfl

@[simp]
theorem BinaryOp.optional_toJson (op : Option BinaryOp) :
    optional (read? .loose) (some (.ofOption toJson op)) = some op := by
  rcases op with _ | op
  · rfl
  · exact optional_some op.read?_toJson rfl

@[simp]
theorem Comparison.read?_toJson (op : Comparison) : read? .loose op.toJson = some op := by
  cases op <;> rfl

@[simp]
theorem LogicalOp.read?_toJson (op : LogicalOp) : read? .loose op.toJson = some op := by
  cases op <;> rfl

@[simp]
theorem UnaryOp.read?_toJson (op : UnaryOp) : read? .loose op.toJson = some op := by
  cases op <;> rfl

/-! ## Records -/

namespace Token

def params? (spelling : Json.Spelling) : (depth : Nat) → Json → Option (List Token)
  | 0, _ => none
  | depth + 1, params => params.list? (read? spelling depth)

theorem read?_succ (spelling : Json.Spelling) (depth : Nat) (j : Json) : read? spelling (depth + 1) j =
    match j.fields? ["kind", "value", "line", "params", "extValue"] with
    | some [kind, value, line, params, structName] => do
      return ⟨← required (within depth (TokenKind.read? spelling)) kind, ← required str? value,
        ← required uint32? line, ← withDefault [] (params? spelling depth) params,
        ← withDefault "" str? structName⟩
    | _ => none := by
  rw [read?]
  cases depth <;> rfl

mutual

theorem read?_back (spelling : Json.Spelling) : (token : Token) → (n : Nat) →
    ReadsBack n .token token.toJson (read? spelling n) token
  | ⟨kind, value, line, params, structName⟩, _, _, h, hn => by
    obtain ⟨n, o, rfl, rfl, -, hfields, hf⟩ := h.fields (by simp) hn
    have hparams : withDefault [] (params? spelling n) (o.lookup "params") = some params := by
      obtain ⟨items, hitems, hsparse, hdepth⟩ | ⟨hnone, hj⟩ := (hf "params").array rfl
      · obtain ⟨m, rfl⟩ := depth_succ hdepth
        rw [hitems]
        exact list_back spelling params m items hsparse (Nat.le_of_succ_le_succ hdepth)
      · rw [hnone]
        cases params with
        | nil => rfl
        | cons => cases hj
    have hstruct := (hf "extValue").spared (withDefault "" str?) rfl rfl rfl
    simp [read?_succ, hfields, (hf "kind").plain rfl rfl, (hf "value").plain rfl rfl, (hf "line").plain rfl rfl,
      hparams, hstruct]

theorem list_back (spelling : Json.Spelling) : (tokens : List Token) → (n : Nat) →
    ReadsBackItems n .token (listToJson tokens) (read? spelling n) tokens
  | [], _ => .nil
  | token :: rest, n => .cons (read?_back spelling token n) (list_back spelling rest n)

end

theorem inner?_back (n : Nat) (token : Token) : ReadsBack n .token token.toJson inner? token :=
  fun j h _ => read?_back .loose token j.depth j h (Nat.le_refl _)

theorem ofJson?_back (n : Nat) (token : Token) : ReadsBack n .token token.toJson ofJson? token :=
  fun j h _ => read?_back .strict token j.depth j h (Nat.le_refl _)

end Token

namespace Expr

def access? (depth : Nat) (j : Json) : Option Access := do
  let (name, fields) ← j.form? accessForms .loose
  readAccessForm? (read? .loose depth) name fields

variable {spelling : Json.Spelling} {n : Nat} {name : String} {j r : Json}

theorem read?_form (h : j.form? forms spelling = some (name, r)) :
    read? spelling (n + 1) j = readForm? (read? .loose n) (access? n) name r := by
  rw [read?, h]
  rfl

theorem access?_form (h : j.form? accessForms .loose = some (name, r)) :
    access? n j = readAccessForm? (read? .loose n) name r := by
  rw [access?, h]
  rfl

mutual

theorem read?_back (spelling : Json.Spelling) : (e : Expr) → (n : Nat) → ReadsBack n .expr e.toJson (read? spelling n) e
  | constant hex fixed line, _, _, h, hn => by
    obtain ⟨n, o, rfl, rfl, hform, hfields, hf⟩ := h.fields (by simp) hn
    have hfixed := (hf "fixed").spared (withDefault false bool?) rfl rfl rfl
    simp [read?_form (hform _ rfl _ _), readForm?, hfields, (hf "hex").plain rfl rfl, hfixed, (hf "line").plain rfl rfl]
  | lookup name path line, _, _, h, hn => by
    obtain ⟨n, o, rfl, rfl, hform, hfields, hf⟩ := h.fields (by simp) hn
    have hpath := (hf "modifiers").list (path_back path n) rfl rfl
    simp [read?_form (hform _ rfl _ _), readForm?, hfields, (hf "name").plain rfl rfl, hpath, (hf "line").plain rfl rfl]
  | call name args line, _, _, h, hn => by
    obtain ⟨n, o, rfl, rfl, hform, hfields, hf⟩ := h.fields (by simp) hn
    have hargs := (hf "args").list (list_back args n) rfl rfl
    simp [read?_form (hform _ rfl _ _), readForm?, hfields, (hf "name").plain rfl rfl, hargs, (hf "line").plain rfl rfl]
  | unary op operand line, _, _, h, hn => by
    obtain ⟨n, o, rfl, rfl, hform, hfields, hf⟩ := h.fields (by simp) hn
    have hread := (hf "operand").one (read?_back .loose operand n) rfl rfl
    simp [read?_form (hform _ rfl _ _), readForm?, hfields, (hf "op").plain rfl rfl, hread, (hf "line").plain rfl rfl]
  | binary op left right line, _, _, h, hn | compare op left right line, _, _, h, hn
  | logical op left right line, _, _, h, hn => by
    obtain ⟨n, o, rfl, rfl, hform, hfields, hf⟩ := h.fields (by simp) hn
    have hleft := (hf "left").one (read?_back .loose left n) rfl rfl
    have hright := (hf "right").one (read?_back .loose right n) rfl rfl
    simp [read?_form (hform _ rfl _ _), readForm?, hfields, (hf "op").plain rfl rfl, hleft, hright, (hf "line").plain rfl rfl]
  | assign op target value line, _, _, h, hn => by
    obtain ⟨n, o, rfl, rfl, hform, hfields, hf⟩ := h.fields (by simp) hn
    have hop := (hf "op").spared (optional (BinaryOp.read? .loose)) rfl rfl rfl
    have htarget := (hf "target").one (read?_back .loose target n) rfl rfl
    have hvalue := (hf "value").one (read?_back .loose value n) rfl rfl
    simp [read?_form (hform _ rfl _ _), readForm?, hfields, hop, htarget, hvalue, (hf "line").plain rfl rfl]
  | step up before target line, _, _, h, hn => by
    obtain ⟨n, o, rfl, rfl, hform, hfields, hf⟩ := h.fields (by simp) hn
    have hread := (hf "target").one (read?_back .loose target n) rfl rfl
    simp [read?_form (hform _ rfl _ _), readForm?, hfields, (hf "increment").plain rfl rfl, (hf "prefix").plain rfl rfl,
      hread, (hf "line").plain rfl rfl]

theorem access?_back : (a : Access) → (n : Nat) → ReadsBack n .access (accessToJson a) (access? n) a
  | .index index, n, _, h, hn => by
    obtain ⟨m, o, hm, rfl, hform, hfields, hf⟩ := h.fields (by simp) (Nat.le_succ_of_le hn)
    obtain rfl := Nat.succ.inj hm
    have hread := (hf "index").one (read?_back .loose index n) rfl rfl
    simp [access?_form (hform _ rfl _ _), readAccessForm?, hfields, hread]
  | .member name, _, _, h, hn | .arrow name, _, _, h, hn => by
    obtain ⟨n, o, rfl, rfl, hform, hfields, hf⟩ := h.fields (by simp) hn
    simp [access?_form (hform _ rfl _ _), readAccessForm?, hfields, (hf "name").plain rfl rfl]

theorem path_back : (path : List Access) → (n : Nat) → ReadsBackItems n .access (pathToJson path) (access? n) path
  | [], _ => .nil
  | a :: rest, n => .cons (access?_back a n) (path_back rest n)

theorem list_back : (es : List Expr) → (n : Nat) → ReadsBackItems n .expr (listToJson es) (read? .loose n) es
  | [], _ => .nil
  | e :: rest, n => .cons (read?_back .loose e n) (list_back rest n)

end

theorem inner?_back (n : Nat) (e : Expr) : ReadsBack n .expr e.toJson inner? e :=
  fun j h _ => read?_back .loose e j.depth j h (Nat.le_refl _)

end Expr

namespace Stmt

theorem read?_form {spelling : Json.Spelling} {n : Nat} {name : String} {j r : Json}
    (h : j.form? forms spelling = some (name, r)) :
    read? spelling (n + 1) j = readForm? (read? .loose n) name r := by
  rw [read?, h]
  rfl

mutual

theorem read?_back (spelling : Json.Spelling) : (stmt : Stmt) → (n : Nat) →
    ReadsBack n .stmt stmt.toJson (read? spelling n) stmt
  | expression e, _, _, h, hn | const e, _, _, h, hn => by
    obtain ⟨n, o, rfl, rfl, hform, hfields, hf⟩ := h.fields (by simp) hn
    have he := (hf "expr").one (e.inner?_back n) rfl rfl
    simp [read?_form (hform _ rfl _ _), readForm?, hfields, he]
  | declaration tokens, _, _, h, hn => by
    obtain ⟨n, o, rfl, rfl, hform, hfields, hf⟩ := h.fields (by simp) hn
    have htokens := (hf "tokens").many (.map (Token.inner?_back n) tokens) rfl rfl
    simp [read?_form (hform _ rfl _ _), readForm?, hfields, htokens]
  | structDefinition name members line, _, _, h, hn => by
    obtain ⟨n, o, rfl, rfl, hform, hfields, hf⟩ := h.fields (by simp) hn
    have hmembers := (hf "members").many (.map (Token.inner?_back n) members) rfl rfl
    simp [read?_form (hform _ rfl _ _), readForm?, hfields, (hf "name").plain rfl rfl, hmembers, (hf "line").plain rfl rfl]
  | ifElse e thenBranch elseBranch line, _, _, h, hn => by
    obtain ⟨n, o, rfl, rfl, hform, hfields, hf⟩ := h.fields (by simp) hn
    have he := (hf "condition").one (e.inner?_back n) rfl rfl
    have hthen := (hf "then_branch").many (list_back thenBranch n) rfl rfl
    have helse : optional (list? (read? .loose n)) (o.lookup "else_branch") = some elseBranch := by
      rcases elseBranch with _ | body
      · exact (hf "else_branch").null
      · obtain ⟨items, hitems, hsparse, hdepth⟩ | ⟨-, hj⟩ := (hf "else_branch").array rfl
        · rw [hitems]
          exact optional_some (list_back body n items hsparse (Nat.le_of_succ_le hdepth)) rfl
        · cases hj
    simp [read?_form (hform _ rfl _ _), readForm?, hfields, he, hthen, helse, (hf "line").plain rfl rfl]
  | whileLoop e body line, _, _, h, hn | doLoop body e line, _, _, h, hn => by
    obtain ⟨n, o, rfl, rfl, hform, hfields, hf⟩ := h.fields (by simp) hn
    have he := (hf "condition").one (e.inner?_back n) rfl rfl
    have hbody := (hf "body").many (list_back body n) rfl rfl
    simp [read?_form (hform _ rfl _ _), readForm?, hfields, he, hbody, (hf "line").plain rfl rfl]
  | forLoop init e step body line, _, _, h, hn => by
    obtain ⟨n, o, rfl, rfl, hform, hfields, hf⟩ := h.fields (by simp) hn
    have hinit := (hf "init").optional (Expr.inner?_back n) rfl rfl rfl
    have he := (hf "condition").optional (Expr.inner?_back n) rfl rfl rfl
    have hstep := (hf "step").optional (Expr.inner?_back n) rfl rfl rfl
    have hbody := (hf "body").many (list_back body n) rfl rfl
    simp [read?_form (hform _ rfl _ _), readForm?, hfields, hinit, he, hstep, hbody, (hf "line").plain rfl rfl]
  | breakLoop line, _, _, h, hn | continueLoop line, _, _, h, hn | exit line, _, _, h, hn | halt line, _, _, h, hn => by
    obtain ⟨n, o, rfl, rfl, hform, hfields, hf⟩ := h.fields (by simp) hn
    simp [read?_form (hform _ rfl _ _), readForm?, hfields, (hf "line").plain rfl rfl]
  | goto name line, _, _, h, hn => by
    obtain ⟨n, o, rfl, rfl, hform, hfields, hf⟩ := h.fields (by simp) hn
    simp [read?_form (hform _ rfl _ _), readForm?, hfields, (hf "label").plain rfl rfl, (hf "line").plain rfl rfl]
  | label name line, _, _, h, hn => by
    obtain ⟨n, o, rfl, rfl, hform, hfields, hf⟩ := h.fields (by simp) hn
    simp [read?_form (hform _ rfl _ _), readForm?, hfields, (hf "name").plain rfl rfl, (hf "line").plain rfl rfl]
  | ret value line, _, _, h, hn => by
    obtain ⟨n, o, rfl, rfl, hform, hfields, hf⟩ := h.fields (by simp) hn
    have hvalue := (hf "value").optional (Expr.inner?_back n) rfl rfl rfl
    simp [read?_form (hform _ rfl _ _), readForm?, hfields, hvalue, (hf "line").plain rfl rfl]
  | block body, _, _, h, hn => by
    obtain ⟨n, o, rfl, rfl, hform, hfields, hf⟩ := h.fields (by simp) hn
    have hbody := (hf "body").many (list_back body n) rfl rfl
    simp [read?_form (hform _ rfl _ _), readForm?, hfields, hbody]

theorem list_back : (stmts : List Stmt) → (n : Nat) → ReadsBackItems n .stmt (listToJson stmts) (read? .loose n) stmts
  | [], _ => .nil
  | stmt :: rest, n => .cons (read?_back .loose stmt n) (list_back rest n)

end

theorem ofJson?_back (n : Nat) (stmt : Stmt) : ReadsBack n .stmt stmt.toJson ofJson? stmt :=
  fun j h _ => read?_back .strict stmt j.depth j h (Nat.le_refl _)

end Stmt

theorem Pragma.ofJson?_back (n : Nat) (p : Pragma) : ReadsBack n .pragma p.toJson ofJson? p := by
  intro j h hn
  obtain ⟨n, o, rfl, rfl, -, hfields, hf⟩ := h.fields (by simp) hn
  have hvalue := (hf "value").spared (withDefault "" str?) rfl rfl rfl
  simp [ofJson?, hfields, (hf "name").plain rfl rfl, hvalue, (hf "line").plain rfl rfl]

theorem Function.ofJson?_back (n : Nat) (f : Function) : ReadsBack n .function f.toJson ofJson? f := by
  intro j h hn
  obtain ⟨n, o, rfl, rfl, -, hfields, hf⟩ := h.fields (by simp) hn
  have harguments := (hf "arguments").list (.map (Token.ofJson?_back n) f.arguments) rfl rfl
  have hbody := (hf "body").list (.map (Stmt.ofJson?_back n) f.body) rfl rfl
  simp [ofJson?, read?, hfields, (hf "name").plain rfl rfl, (hf "returnType").plain rfl rfl, harguments, hbody,
    (hf "line").plain rfl rfl]

theorem Program.ofJson?_back (n : Nat) (p : Program) : ReadsBack n .program p.toJson ofJson? p := by
  intro j h hn
  obtain ⟨n, o, rfl, rfl, -, hfields, hf⟩ := h.fields (by simp) hn
  have hpragmas := (hf "pragmas").list (.map (Pragma.ofJson?_back n) p.pragmas) rfl rfl
  have hmain := (hf "global").list (.map (Stmt.ofJson?_back n) p.main) rfl rfl
  have hfunctions := (hf "functions").list (.map (Function.ofJson?_back n) p.functions) rfl rfl
  have hlines := (hf "sourceLines").spared (withDefault [] (list? str?)) rfl rfl rfl
  simp [ofJson?, read?, hfields, hpragmas, hmain, hfunctions, hlines, list?_map_str]

/-- A program is read back from what is written for it, and from every document in which some of the
fields that are at their defaults are left out, in any record. -/
theorem Program.read_back (p : Program) :
    ofJson? p.toJson = some p ∧ ∀ j, Sparse .program p.toJson j → ofJson? j = some p :=
  ⟨p.ofJson?_back _ _ (.same _) (Nat.le_refl _), fun j h => p.ofJson?_back j.depth j h (Nat.le_refl _)⟩

theorem Sparse.of_keys {k : RecordKind} {o o' : List (String × Json)} (ho : (o.map (·.1)).Nodup)
    (ho' : (o'.map (·.1)).Nodup) (hsub : o'.map (·.1) ⊆ o.map (·.1))
    (h : ∀ key ∈ o.map (·.1), SparseField k (o.lookup "type") key (o.lookup key) (o'.lookup key)) :
    Sparse k (.obj o) (.obj o') := by
  have hnone {key : String} {o : List (String × Json)} (hkey : key ∉ o.map (·.1)) : o.lookup key = none :=
    List.lookup_eq_none_iff.mpr fun entry hentry =>
      bne_iff_ne.mpr fun heq => hkey (List.mem_map.mpr ⟨entry, hentry, heq.symm⟩)
  refine .record ho ho' fun key => ?_
  by_cases hkey : key ∈ o.map (·.1)
  · exact h key hkey
  · rw [hnone hkey, hnone (mt (@hsub key) hkey)]
    exact .same none

/-- A program without most of its lists and a result without its value, with the fields in another order. -/
theorem sparseProgram_read_back :
    let p : Program := { main := [.ret none 4] }
    let j : Json := .obj [("global", .arr [.obj [("line", .int 4), ("type", .str "return")]])]
    Sparse .program p.toJson j ∧ Program.ofJson? j = some p := by
  intro p j
  have hret : Sparse .stmt (Stmt.ret none 4).toJson (.obj [("line", .int 4), ("type", .str "return")]) := by
    refine .of_keys (by decide) (by decide) (by decide) fun key hkey => ?_
    obtain rfl | rfl | rfl : key = "type" ∨ key = "value" ∨ key = "line" := by simpa using hkey
    · exact .same _
    · exact .leftOut rfl
    · exact .same _
  have hsparse : Sparse .program p.toJson j := by
    refine .of_keys (by decide) (by decide) (by decide) fun key hkey => ?_
    obtain rfl | rfl | rfl | rfl : key = "pragmas" ∨ key = "global" ∨ key = "functions" ∨ key = "sourceLines" := by
      simpa using hkey
    · exact .leftOut rfl
    · exact .many rfl (.cons hret .nil)
    · exact .leftOut rfl
    · exact .leftOut rfl
  exact ⟨hsparse, p.read_back.2 j hsparse⟩

end Flatword
