import Flatword.Proofs.Cells
import Flatword.Proofs.Literal
import Flatword.Proofs.Stored

/-!
# Literals in arrays

A string literal that is assigned to a whole array of words is spread over its cells, eight bytes to a
cell, the first byte lowest. It is refused if it has more words than the array has cells.
-/

namespace Flatword

namespace Lower

/-! ## The digits of a cell -/

theorem splitBytes?_append {front : List Char} (h : ∀ c ∈ front, c.utf8Size = 1) (rest : List Char) :
    splitBytes? front.length (front ++ rest) = some (front, rest) := by
  induction front with
  | nil => rw [List.length_nil, List.nil_append, splitBytes?]
  | cons c front ih =>
    have hsize := h c (by simp)
    rw [List.length_cons, List.cons_append, splitBytes?, if_pos (by omega), hsize, Nat.add_sub_cancel,
      ih fun d hd => h d (by simp [hd])]
    rfl

def cellDigits (ws : List Word) : List Char :=
  ws.flatMap fun w => (Hex.ofWord w).toList.reverse

theorem splitBytes?_cellDigits (w : Word) (ws : List Word) :
    splitBytes? Hex.digitsPerWord (cellDigits (w :: ws)) =
      some ((Hex.ofWord w).toList.reverse, cellDigits ws) := by
  have hlength : (Hex.ofWord w).toList.reverse.length = Hex.digitsPerWord := by
    simp [Hex.ofWord]
  have hsize : ∀ c ∈ (Hex.ofWord w).toList.reverse, c.utf8Size = 1 := by
    intro c hc
    rw [List.mem_reverse, Hex.ofWord, String.toList_ofList] at hc
    obtain ⟨d, hd, rfl⟩ := List.mem_map.mp hc
    exact (Numeral.digitChar_ne (Literal.lt_of_mem_hexDigits _ _ d hd)).2.2.2
  rw [← hlength]
  exact splitBytes?_append hsize (cellDigits ws)

theorem fillCells_cons (assign : Slot → Slot → Lower Code) (header : Slot) (i : Nat) (w : Word)
    (ws : List Word) :
    fillCells assign header (w :: ws).length i (cellDigits (w :: ws)) = (do
      let cell ← slotAt header i
      let code ← assign cell (.ofWord w)
      return code ++ (← fillCells assign header ws.length (i + 1) (cellDigits ws))) := by
  have hword : Slot.constant (String.ofList (Hex.ofWord w).toList.reverse.reverse) = .ofWord w := by
    rw [List.reverse_reverse, String.ofList_toList, Slot.ofWord]
  rw [List.length_cons, fillCells, splitBytes?_cellDigits]
  simp only [hword]

/-! ## One cell -/

theorem exists_assignConstant (f : Frame) (s : Scope) (left : Slot) (w : Word) :
    ∃ code, Gives (assignConstant left (.ofWord w)) f s code s := by
  have hvalue : Hex.value? (Hex.padToWords (Hex.ofWord w)) = some w := by simp
  refine ⟨(outcome (assignConstant left (.ofWord w)) f s).1.toOption.getD [], Prod.ext ?_ ?_⟩ <;>
  · simp only [assignConstant, Slot.ofWord, Slot.constant, orFail, hvalue, pure_bind, outcome_bind,
      outcome_read]
    split
    · rfl
    · split
      · rfl
      · simp only [outcome_bind, outcome_get]
        split <;> rfl

theorem assignWithin_ofWord {left : Slot} (hleft : left.isPlain = true) (depth : Nat) (w : Word) :
    assignWithin (depth + 1) left (.ofWord w) = assignConstant left (.ofWord w) := by
  rw [assignWithin_plain hleft rfl, assignRegular, Slot.offset_of_isPlain hleft]
  rfl

namespace Located

variable {i A : Nat} {x arr : Slot} {options : Options} {definitions : List (Place × Definition)}
  {before now : Session} {m : Machine} {u : Scope} {item : ArrayItem}

theorem words_eq (h : Located options definitions before now m u) :
    u.session.table.words = now.table.words :=
  show u.session.table.bare.next = now.table.bare.next from
    congrArg Table.next (h.scope.invariant Scope.Move.bare)

theorem gives_slotAt (h : Located options definitions before now m u) (f : Frame)
    (hwords : now.table.words ≤ wordLimit) (hvalue : arr.value? = some (UInt64.ofNat (A + 1)))
    (hfind : u.session.table.findAt? (A + 1 + i) = some x) : ∃ t, Gives (slotAt arr i) f u x t := by
  have hlt : A + 1 + i < wordLimit := by
    by_contra hge
    have hnone := h.laidOut.findAt?_eq_none (a := A + 1 + i) (by rw [h.words_eq]; omega)
    simp [hnone] at hfind
  have hbase : (UInt64.ofNat (A + 1)).toNat = A + 1 :=
    UInt64.toNat_ofNat_of_lt' (Nat.lt_of_le_of_lt (Nat.le_add_right _ i) hlt)
  have hrange : (0 : Int) ≤ ((UInt64.ofNat (A + 1)).toNat : Int) + i ∧
      ((UInt64.ofNat (A + 1)).toNat : Int) + i < wordLimit := by
    rw [hbase]
    omega
  have haddress : (((UInt64.ofNat (A + 1)).toNat : Int) + i).toNat = A + 1 + i := by
    rw [hbase]
    omega
  obtain ⟨t, ht⟩ := Lower.gives_noteUse x f u
  refine ⟨t, ?_⟩
  simp only [slotAt, gives_bind, gives_orFail, hvalue]
  refine ⟨_, u, ⟨rfl, rfl⟩, ?_⟩
  rw [if_pos hrange, haddress]
  simp only [lookupAt, gives_bind, gives_get]
  exact ⟨u, u, ⟨rfl, rfl⟩, by rw [hfind]; exact ht⟩

theorem holdIn_update (h : Located options definitions before now m u) {a : Nat}
    (hx : x ∈ u.session.table.slots) (hk : x.kind ≠ .struct) (ha : x.address = some a)
    (hunder : x.Under arr) {μ : Memory} (hμ : u.ground.HoldIn μ) (w : Word) :
    u.ground.HoldIn (Function.update μ a w) := by
  intro slot v b hnames hb
  have hne : b ≠ a := by
    rintro rfl
    obtain ⟨y, hy, rfl⟩ := List.mem_map.mp hnames.mem
    have hyk : y.unmarked.kind ≠ .struct := h.kind_of_names hnames
    have hyx := h.laidOut.eq_of_address hy hx hyk hk (Eq.trans hb ha.symm)
    subst hyx
    obtain ⟨rest, hrest⟩ := hunder
    have hunderscore : '_' ∈ y.asmName.toList := by simp [hrest]
    have hnumbered := ne_numbered_of_underscore hunderscore v
    exact hnames.name.elim hnumbered.1 hnumbered.2
  rw [Function.update_of_ne hne]
  exact hμ slot v b hnames hb

theorem fillCells_runs (h : Located options definitions before now m u) (f : Frame)
    (hwords : now.table.words ≤ wordLimit) (harr : u.Knows arr) (hkind : arr.kind = .array)
    (hitem : arr.item = some item) (hstruct : item.kind ≠ .struct) (haddress : arr.address = some A)
    (hvalue : arr.value? = some (UInt64.ofNat (A + 1))) (depth : Nat) {ws : List Word}
    (hi : i + ws.length + 1 ≤ item.totalSize) :
    ∃ code t, Gives (fillCells (assignWithin (depth + 1)) arr ws.length i (cellDigits ws)) f u code t ∧
      ∀ μ, u.ground.HoldIn μ → ∃ μ', m.Runs code μ μ' ∧
        (∀ k w, ws[k]? = some w → μ' (A + 1 + i + k) = w) ∧
        AgreeOutside {a | A + 1 + i ≤ a ∧ a < A + 1 + i + ws.length} μ μ' := by
  induction ws generalizing i u with
  | nil =>
    refine ⟨[], u, gives_pure.mpr ⟨rfl, rfl⟩, fun μ _ => ⟨μ, .nil, by simp, .refl _ _⟩⟩
  | cons w ws ih =>
    rw [List.length_cons] at hi
    obtain ⟨x, hfind, hplain, hat, hunder⟩ :=
      h.cell harr hkind hitem hstruct haddress (i := i) (by omega)
    obtain ⟨u₁, hslot⟩ := h.gives_slotAt f hwords hvalue hfind
    have hleads := leads_of_gives hslot
    have h₁ := h.later hleads
    obtain ⟨first, hfirst⟩ := exists_assignConstant f u₁ x w
    obtain ⟨-, -, hruns⟩ := assignConstant_runs h₁.constants hat
      (show (Slot.ofWord w).value? = some w by simp [Slot.ofWord, Slot.constant, Slot.value?]) hfirst
    obtain ⟨code, t, hgives, hrest⟩ := ih h₁ (harr.congr hleads.ground) (i := i + 1) (by omega)
    refine ⟨first ++ code, t, ?_, fun μ hμ => ?_⟩
    · rw [fillCells_cons]
      simp only [gives_bind, gives_pure]
      have hassign : Gives (assignWithin (depth + 1) x (.ofWord w)) f u₁ first u₁ := by
        rw [assignWithin_ofWord hplain]
        exact hfirst
      exact ⟨x, u₁, hslot, first, u₁, hassign, code, t, hgives, rfl, rfl⟩
    · have hmem := List.mem_of_find?_eq_some hfind
      have hk : x.kind ≠ .struct := Slot.kind_ne_of_isPlain hplain
      have hμ₁ := h.holdIn_update hmem hk hat.1 hunder hμ w
      rw [← hleads.ground] at hμ hμ₁
      obtain ⟨μ', hμ', hset, hagree⟩ := hrest _ hμ₁
      refine ⟨μ', (hruns μ hμ).append hμ', fun k v hv => ?_, fun a ha => ?_⟩
      · obtain _ | k := k
        · obtain rfl : w = v := by simpa using hv
          rw [Nat.add_zero, hagree _ (by simp), Function.update_self]
        · rw [List.getElem?_cons_succ] at hv
          have hset := hset k v hv
          rwa [show A + 1 + (i + 1) + k = A + 1 + i + (k + 1) by omega] at hset
      · simp only [Set.mem_ofPred_eq, List.length_cons, not_and, Nat.not_lt] at ha
        rw [hagree a (by simp; omega), Function.update_of_ne (by omega)]

end Located

/-! ## The whole array -/

theorem fillArray_hexText (assign : Slot → Slot → Lower Code) {header : Slot} {item : ArrayItem}
    (hitem : header.item = some item) (content : List UInt8) :
    fillArray assign header (.constant (Literal.hexText content)) =
      if item.totalSize - 1 < Literal.words content then fail .arrayOverflow
      else fillCells assign header (item.totalSize - 1) 0
        (cellDigits ((List.range (item.totalSize - 1)).map (Literal.wordAt content))) := by
  have hconstant : (Slot.constant (Literal.hexText content)).isConstant = true := rfl
  have hcontent : (Slot.constant (Literal.hexText content)).content =
    some (Hex.padToWords (Literal.hexText content)) := rfl
  have hsize := Literal.utf8ByteSize_significant_le content
  have hdigits : ∀ count, content.length ≤ 8 * count →
      ((Hex.significant (Hex.padToWords (Literal.hexText content))).toList.leftpad
        (count * Hex.digitsPerWord) '0').reverse =
      cellDigits ((List.range count).map (Literal.wordAt content)) := by
    intro count hcount
    have hlength := Literal.length_flatMap_byteHex content
    rw [Literal.significant_hexText, String.toList_ofList, Hex.digitsPerWord,
      Literal.leftpad_dropWhile (by omega), Literal.reverse_leftpad hcount, cellDigits, List.flatMap_map]
  unfold fillArray
  rw [Literal.size_constant_hexText, hconstant, hitem, hcontent]
  simp only [Bool.not_true, Bool.false_eq_true, if_false, orFail, pure_bind]
  by_cases hover : item.totalSize - 1 < Literal.words content
  · rw [if_pos (.inl hover), if_pos hover]
    rfl
  · have hbytes : content.length ≤ 8 * (item.totalSize - 1) := by
      unfold Literal.words at hover
      omega
    have hfits : ¬ (Literal.words content > item.totalSize - 1 ∨
        (Hex.significant (Hex.padToWords (Literal.hexText content))).utf8ByteSize >
          (item.totalSize - 1) * Hex.digitsPerWord) := by
      unfold Hex.digitsPerWord
      omega
    rw [if_neg hfits, if_neg hover, hdigits _ hbytes]

theorem outcome_assign_array {f : Frame} {u u₁ : Scope} {target : Expr} {arr : Slot}
    (hplace : target.namesPlace = true) (htarget : Gives (onSide true target.lower) f u ⟨arr, []⟩ u₁)
    (hkind : arr.kind = .array) (hoffset : arr.offset = none) (hex : String) (line line' : Line) :
    ∃ u₂ depth, u₁.Leads u₂ ∧
      outcome (Expr.assign none target (.constant hex false line) line').lower f u =
        outcome (do
          let code ← fillArray (assignWithin (depth + 1)) arr (.constant hex)
          releaseBeside arr (.constant hex)
          return (⟨arr, code⟩ : Lowered)) f u₂ := by
  have hforbid : u₁.Leads (outcome forbidReuse f u₁).2 := Orderly.leads f u₁
  have htarget' : outcome (lowerTarget target.namesPlace target.lower) f u = (.ok ⟨arr, []⟩, u₁) := by
    rw [lowerTarget, hplace, if_neg (by decide), outcome_bind, show outcome _ f u = _ from htarget]
    simp only [hkind, hoffset, outcome_pure]
  have hreserve (plain : Bool) : outcome (reserveTarget plain arr) f u₁ =
      (.ok (), { u₁ with reuse := u₁.reuse.forbid }) := by
    simp [reserveTarget, hkind, forbidReuse]
  have hassign (depth : Nat) : assignWithin (depth + 1) arr (.constant hex) =
      fillArray (assignWithin depth) arr (.constant hex) := by
    rw [assignWithin, resolveConstant_of_offset hoffset, pure_bind,
      resolveConstant_of_offset (show (Slot.constant hex).offset = none from rfl), pure_bind, hkind]
    simp only [assignArray, hoffset]
  refine ⟨{ u₁ with reuse := u₁.reuse.forbid }, u₁.session.table.slots.length + 2, hforbid, ?_⟩
  show outcome (lowerAssign none _ (lowerTarget target.namesPlace target.lower)
    (pure ⟨.constant hex, []⟩)) f u = _
  rw [lowerAssign, outcome_bind, htarget']
  dsimp only
  rw [outcome_bind, hreserve]
  dsimp only
  rw [pure_bind, if_neg (by simp [Slot.constant])]
  simp only [storeValue, Lower.assign, bind_assoc, pure_bind]
  rw [outcome_bind, outcome_get]
  dsimp only
  rw [show nesting u₁.session = u₁.session.table.slots.length + 2 + 1 + 1 from rfl, hassign]
  rfl

/-- A text is a literal exactly if it is in the grammar. A literal that is assigned to a whole array of
words sets the cells to its bytes, eight to a cell, and nothing else; it is refused if it takes more words
than there are cells. -/
theorem string_lands_in_array {options : Options} {definitions : List (Place × Definition)}
    {before now : Session} {m : Machine} {u u₁ : Scope} (hu : Located options definitions before now m u)
    (hwords : now.table.words ≤ wordLimit) {f : Frame} {target : Expr} {arr : Slot} {item : ArrayItem}
    (hplace : target.namesPlace = true) (htarget : Gives (onSide true target.lower) f u ⟨arr, []⟩ u₁)
    (harr : u.Knows arr) (hkind : arr.kind = .array) (hitem : arr.item = some item)
    (hcells : item.kind ≠ .struct) (text : String) (line line' : Line) :
    ((∃ e, Expr.string text line = .ok e) ↔ ∃ content, Literal.Spells text.toList content) ∧
    ∀ content, Literal.Spells text.toList content →
      ∃ e A, Expr.string text line = .ok e ∧ arr.address = some A ∧
        if max 1 ((content.length + 7) / 8) ≤ item.totalSize - 1 then
          ∃ v t, Gives (Expr.assign none target e line').lower f u v t ∧
            ∀ μ, u.ground.HoldIn μ → ∃ μ', m.Runs v.code μ μ' ∧
              (∀ i < item.totalSize - 1, μ' (A + 1 + i) =
                UInt64.ofNat (∑ j ∈ Finset.range 8, (content.getD (8 * i + j) 0).toNat * 256 ^ j)) ∧
              ∀ a, (∀ i < item.totalSize - 1, a ≠ A + 1 + i) → μ' a = μ a
        else
          (outcome (Expr.assign none target e line').lower f u).1 =
            .error (.atLine f.line .arrayOverflow) := by
  refine ⟨Literal.exists_string_iff, fun content hspells => ?_⟩
  obtain ⟨A, haddress, hvalue⟩ := hu.header harr hkind
  refine ⟨.constant (Literal.hexText content) false line, A, ?_, haddress, ?_⟩
  · rw [Expr.string, Literal.encode_eq_ok_iff.mpr ⟨content, hspells, rfl⟩]
  obtain ⟨u₂, depth, hleads, houtcome⟩ := outcome_assign_array hplace htarget hkind (hu.offset_eq_none harr)
    (Literal.hexText content) line line'
  have hleads : u.Leads u₂ := (leads_of_gives htarget).trans hleads
  rw [fillArray_hexText _ hitem] at houtcome
  split
  · next hfits =>
    have hfits : Literal.words content ≤ item.totalSize - 1 := hfits
    have hpositive : 1 ≤ Literal.words content := Nat.le_max_left ..
    obtain ⟨code, t, hcode, hruns⟩ := (hu.later hleads).fillCells_runs f hwords (harr.congr hleads.ground)
      hkind hitem hcells haddress hvalue depth (i := 0)
      (show 0 + ((List.range (item.totalSize - 1)).map (Literal.wordAt content)).length + 1 ≤ _ by
        simp; omega)
    rw [List.length_map, List.length_range] at hcode hruns
    obtain ⟨t', hrelease⟩ :
        ∃ t', Gives (releaseBeside arr (.constant (Literal.hexText content))) f t () t' := by
      unfold releaseBeside
      split <;> exact ⟨_, rfl⟩
    refine ⟨⟨arr, code⟩, t', ?_, fun μ hμ => ?_⟩
    · rw [Gives, houtcome, if_neg (by omega)]
      exact gives_bind.mpr ⟨code, t, hcode, gives_bind.mpr ⟨(), t', hrelease, rfl⟩⟩
    · obtain ⟨μ', hμ', hset, hagree⟩ := hruns μ (hleads.ground ▸ hμ)
      refine ⟨μ', hμ', fun i hi => ?_, fun a ha => hagree a ?_⟩
      · exact hset i (Literal.wordAt content i) (by simp [hi])
      · rintro ⟨hlow, hhigh⟩
        exact ha (a - (A + 1)) (by omega) (by omega)
  · next hover =>
    have hover : item.totalSize - 1 < Literal.words content := Nat.lt_of_not_le hover
    rw [houtcome, if_pos hover, outcome_bind, outcome_fail]

end Lower

/-- An array of three words. -/
def textArray : List (Place × Definition) :=
  [(.global, Definition.variables [.keyword "long" 1, .ident "a" 1, .array 3 1])]

open Lower in
/-- The two bytes of the character that `\\u00e9` names are the last byte of one cell and the first byte of
the next. -/
theorem textArray_takes_text : ∃ (s : Session) (m : Machine) (e : Expr) (v : Lowered) (t : Scope)
    (μ' : Memory), Located {} textArray s s m (.start s) ∧
      Expr.string "abcdefg\\u00e9!" 2 = .ok e ∧
      Gives (Expr.assign none (.var "a" 2) e 2).lower { line := 2 } (.start s) v t ∧
      m.Runs v.code (fun _ => 9) μ' ∧ μ' 3 = 9 ∧ μ' 4 = 0xc367666564636261 ∧ μ' 5 = 0x21a9 ∧ μ' 6 = 0 ∧
      μ' 7 = 9 := by
  have hfound : (Session.after? {} textArray).any fun s =>
      (s.table.slots.any fun arr => (arr.kind = .array && arr.address = some 3) &&
        (arr.item.any (fun item => item.totalSize = 4 && item.kind = .long) &&
          (outcome (onSide true (Expr.var "a" 2).lower) { line := 2 } (.start s)).1.toOption.any
            fun v => v.slot = arr && v.code = [])) &&
      (s.table.slots.all (fun x => x.content = none || x.asmName = "a") && s.table.words = 7) := by
    decide
  obtain ⟨s, hs, hfound⟩ := (Option.any_eq_true _ _).mp hfound
  simp only [Bool.and_eq_true, List.any_eq_true, Option.any_eq_true, decide_eq_true_eq, List.all_eq_true,
    Bool.or_eq_true] at hfound
  obtain ⟨⟨arr, harr, ⟨hkind, hA⟩, ⟨item, hitem, hsize, hlong⟩, ⟨_, _⟩, htarget, rfl, rfl⟩,
    hslots, hwords⟩ := hfound
  have hu := Located.start (Session.defined_of_after? hs) (by decide) .unsigned
  have hspells : Literal.Spells "abcdefg\\u00e9!".toList
      [0x61, 0x62, 0x63, 0x64, 0x65, 0x66, 0x67, 0xc3, 0xa9, 0x21] :=
    Literal.bytes_eq_ok_iff.mp (by rfl)
  have hconstants : (Scope.start s).ground.HoldIn (fun _ => 9) :=
    Scope.holdIn_start "a" (by decide) hslots _
  obtain ⟨-, hlands⟩ := string_lands_in_array hu (by rw [hwords]; decide)
    (show (Expr.var "a" 2).namesPlace = true from rfl) (gives_of_toOption htarget)
    (Scope.knows_of_mem harr) hkind hitem (by simp [hlong]) "abcdefg\\u00e9!" 2 2
  obtain ⟨e, A, he, hA', hcase⟩ := hlands _ hspells
  obtain rfl : A = 3 := Option.some.inj (hA'.symm.trans hA)
  rw [hsize, if_pos (by decide)] at hcase
  obtain ⟨v, t, hv, hruns⟩ := hcase
  obtain ⟨μ', hμ', hset, hkept⟩ := hruns _ hconstants
  refine ⟨s, _, e, v, t, μ', hu, he, hv, hμ', hkept 3 (by omega), ?_, ?_, ?_, hkept 7 (by omega)⟩
  · rw [hset 0 (by decide)]
    rfl
  · rw [hset 1 (by decide)]
    rfl
  · rw [hset 2 (by decide)]
    rfl

end Flatword
