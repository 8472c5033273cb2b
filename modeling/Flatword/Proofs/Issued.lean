import Flatword.Proofs.Condition
import Flatword.Proofs.Jumps

/-!
# Numbers of jumps

A number is written in base 36 in one way only, and a session counts its jumps up by one at a time. So no
number is handed out twice before the counter comes round, and the units of a program share none.
-/

namespace Flatword

theorem Numeral.digitChar_lower {d : Nat} (h : d < 36) :
    '0' ≤ digitChar d ∧ digitChar d ≤ '9' ∨ 'a' ≤ digitChar d ∧ digitChar d ≤ 'z' := by
  have hall : ∀ d < 36, '0' ≤ digitChar d ∧ digitChar d ≤ '9' ∨
      'a' ≤ digitChar d ∧ digitChar d ≤ 'z' := by decide
  exact hall d h

/-- The `n` numbers after `j`, as they are handed out. -/
def Numeral.after (j : UInt32) (n : Nat) : List String :=
  (List.range n).map fun i => base36 (j + UInt32.ofNat (i + 1))

namespace Numeral

variable {j : UInt32} {n : Nat}

theorem after_append (j : UInt32) (n k : Nat) :
    after j n ++ after (j + UInt32.ofNat n) k = after j (n + k) := by
  simp only [after, List.range_add, List.map_append, List.map_map, List.append_cancel_left_eq]
  refine List.map_congr_left fun i _ => ?_
  rw [Function.comp_apply, Nat.add_assoc, UInt32.ofNat_add n, UInt32.add_assoc]

theorem nodup_after (hn : n < UInt32.size) : (after j n).Nodup := by
  refine (List.nodup_map_iff_inj_on List.nodup_range).mpr fun i hi k hk heq => ?_
  rw [List.mem_range] at hi hk
  have hnat := congrArg UInt32.toNat ((UInt32.add_right_inj _).mp (base36_injective heq))
  rw [UInt32.toNat_ofNat_of_lt' (by omega), UInt32.toNat_ofNat_of_lt' (by omega)] at hnat
  omega

end Numeral

namespace Session

/-- From one session to a later one, scopes and units take these numbers in this order. In between
there are definitions, signatures of functions, marks and values of variables, and the steps of scopes
that take no number. -/
inductive Issues (s : Session) : List String → Session → Prop
  | nil : Issues s [] s
  | scope {ids id f} {u v : Scope} (h : Issues s ids u.session)
      (hid : Gives Lower.newJump f u id v) : Issues s (ids ++ [id]) v.session
  | unit {ids id r} {p q : Progress} (h : Issues s ids p.session)
      (hid : Gives Emit.newJump r p id q) : Issues s (ids ++ [id]) q.session
  | define {ids t} (h : Issues s ids t) (place : Place)
      (definition : Definition) : Issues s ids (result (define place definition) t).2
  | sign {ids t} (h : Issues s ids t) (functions : List Signature) :
      Issues s ids { t with functions }
  | declared {ids t} (h : Issues s ids t) (asmName : String) :
      Issues s ids { t with table := t.table.markDeclared asmName }
  | record {ids t} (h : Issues s ids t) (asmName hex : String) :
      Issues s ids { t with table := t.table.setContent asmName hex }
  | move {ids} {u v : Scope} (h : Issues s ids u.session) (hmove : u.Move v)
      (hjumps : v.session.jumps = u.session.jumps) : Issues s ids v.session

variable {s t : Session} {ids : List String}

theorem jumps_define (place : Place) (definition : Definition) (t : Session) :
    (result (define place definition) t).2.jumps = t.jumps := by
  rcases definition with tokens | ⟨name, members, line⟩
  · obtain ⟨slots, -, heq⟩ := declare_adds place tokens t
    rw [define_variables, heq]
  · rw [Session.define, result_liftLayout]

theorem Issues.eq_after (h : s.Issues ids t) :
    ids = Numeral.after s.jumps ids.length ∧ t.jumps = s.jumps + UInt32.ofNat ids.length := by
  have hnext {ids : List String} {t u : Session}
      (ih : ids = Numeral.after s.jumps ids.length ∧ t.jumps = s.jumps + UInt32.ofNat ids.length)
      {id : String} (hid : id = Numeral.base36 (t.jumps + 1)) (hjumps : u.jumps = t.jumps + 1) :
      ids ++ [id] = Numeral.after s.jumps (ids ++ [id]).length ∧
        u.jumps = s.jumps + UInt32.ofNat (ids ++ [id]).length := by
    have hone : Numeral.after t.jumps 1 = [id] := by rw [hid]; rfl
    rw [List.length_append, List.length_singleton, ← Numeral.after_append, ← ih.1, ← ih.2, hone,
      hjumps, ih.2, UInt32.ofNat_add, UInt32.add_assoc]
    exact ⟨rfl, rfl⟩
  induction h with
  | nil => simp [Numeral.after]
  | scope _ hid ih =>
    obtain ⟨hid, hjumps, -⟩ := Lower.newJump_continues hid
    exact hnext ih hid hjumps
  | unit _ hid ih =>
    obtain ⟨rfl, rfl⟩ := Emit.gives_newJump.mp hid
    exact hnext ih rfl rfl
  | define _ place definition ih => exact ⟨ih.1, (jumps_define place definition _).trans ih.2⟩
  | sign _ _ ih | declared _ _ ih | record _ _ _ ih => exact ih
  | move _ _ hjumps ih => exact ⟨ih.1, hjumps.trans ih.2⟩

theorem Issues.leads (h : s.Issues ids t) {u : Session} (hleads : t.Leads u) :
    ∃ more, s.Issues more u := by
  refine hleads.preserves (P := fun u => ∃ ids, s.Issues ids u) (fun {u v} hmove hu => ?_) ⟨ids, h⟩
  cases hmove with
  | number =>
    obtain ⟨ids, hu⟩ := hu
    exact ⟨_, .unit (r := {}) (p := { session := u }) hu (Emit.gives_newJump.mpr ⟨rfl, rfl⟩)⟩
  | declared => exact hu.imp fun _ hu => hu.declared _
  | sentence hk f =>
    refine Lower.Sentence.upholds (P := fun w => ∃ ids, s.Issues ids w.session)
      (fun {w w'} hmove hw => ?_) id (fun _ hw _ _ => hw.imp fun _ hw => hw.record _ _) hk f
      (s := .start u) hu
    obtain ⟨ids, hw⟩ := hw
    cases hmove with
    | number => exact ⟨_, .scope (f := { line := 0 }) (u := w) hw rfl⟩
    | handOut h => exact ⟨ids, hw.move (.handOut h) rfl⟩
    | take h => exact ⟨ids, hw.move (.take h) rfl⟩
    | reserve h ht => exact ⟨ids, hw.move (.reserve h ht) rfl⟩
    | warn journal => exact ⟨ids, hw.move (.warn w journal) rfl⟩
    | mark asmName => exact ⟨ids, hw.move (.mark w asmName) rfl⟩
    | release | allow | forbid | post => exact ⟨ids, hw⟩

theorem Reached.issues {options : Options} {defined : List (Place × Definition)}
    (h : Reached options defined s) :
    ∃ first ids, Session.start options = .ok first ∧ first.Issues ids s := by
  induction h with
  | start h => exact ⟨_, [], h, .nil⟩
  | define _ _ definition ih =>
    obtain ⟨first, ids, hstart, hissues⟩ := ih
    exact ⟨first, ids, hstart, hissues.define _ definition⟩
  | sign _ functions ih =>
    obtain ⟨first, ids, hstart, hissues⟩ := ih
    exact ⟨first, ids, hstart, hissues.sign functions⟩
  | emit _ hleads ih =>
    obtain ⟨first, ids, hstart, hissues⟩ := ih
    exact ⟨first, (hissues.leads hleads).imp fun _ hissues => ⟨hstart, hissues⟩⟩

end Session

/-! ## Units -/

/-- Each label of the code is one of the source, or made from one of these numbers. -/
def Code.MadeFrom (own : List String) (code : Code) (ids : List String) : Prop :=
  ∀ label ∈ code.labelNames, label ∈ own ∨ ∃ id ∈ ids, label ∈ Label.family id

theorem Emit.Delivers.madeFrom {E : Instr → Prop} {own names : List String} {n : Nat} {s t : Session}
    {code : Code} (h : Emit.Delivers E own n s code t) (hnames : own ⊆ names) :
    code.MadeFrom names (Numeral.after s.jumps n) := by
  intro label hlabel
  obtain ⟨made, hperm, hmade⟩ := h.linked.labels
  rcases List.mem_append.mp (hperm.mem_iff.mp hlabel) with hown | hmem
  · exact .inl (hnames hown)
  · obtain ⟨i, hpos, hle, hfamily⟩ := hmade.own label (by rwa [Code.labels_map_label])
    refine .inr ⟨_, List.mem_map.mpr ⟨i - 1, List.mem_range.mpr (by omega), rfl⟩, ?_⟩
    rwa [Nat.sub_add_cancel hpos]

namespace Session

variable {s t : Session}

theorem functions_madeFrom {sourceLines names : List String} {functions : List Function}
    {compiled : List (String × Code)} (hs : s.Fit)
    (hnames : functions.flatMap Function.labelNames ⊆ names)
    (h : result (functions.mapM (compileFunction sourceLines)) s = (.ok compiled, t)) :
    ∃ idss : List (List String), idss.flatten = Numeral.after s.jumps (functionJumps functions) ∧
      List.Forall₂ (Code.MadeFrom names) (compiled.map Assembly.functionCode) idss := by
  induction functions generalizing s compiled with
  | nil =>
    simp only [List.mapM_nil, result_pure, Prod.mk.injEq, Except.ok.injEq] at h
    obtain ⟨rfl, rfl⟩ := h
    exact ⟨[], rfl, .nil⟩
  | cons f rest ih =>
    simp only [List.mapM_cons, result_bind_eq_ok, result_pure, Prod.mk.injEq, Except.ok.injEq] at h
    obtain ⟨first, s₁, hfirst, others, _, hrest, rfl, rfl⟩ := h
    obtain ⟨-, -, hfirst⟩ := delivers_compileFunction hs hfirst
    rw [List.flatMap_cons, List.append_subset] at hnames
    obtain ⟨idss, hidss, hmade⟩ := ih (hs.leads hfirst.leads) hnames.2 hrest
    refine ⟨_ :: idss, ?_, .cons (hfirst.madeFrom hnames.1) hmade⟩
    rw [List.flatten_cons, hidss, hfirst.jumps, Numeral.after_append]
    rfl

end Session

theorem Compilation.units_madeFrom {program : Program} {c : Compiled} (r : Compilation program c) :
    ∃ idss : List (List String), idss.flatten = Numeral.after 0 program.jumps ∧
      List.Forall₂ (Code.MadeFrom (Stmt.labelNames program.main ++
        program.functions.flatMap Function.labelNames)) c.assembly.units idss := by
  have hmain := r.delivers_main.1
  obtain ⟨idss, hidss, hmade⟩ := Session.functions_madeFrom (r.fit_built.leads hmain.leads)
    (List.subset_append_right (Stmt.labelNames program.main) _) r.functions_eq
  refine ⟨_ :: idss, ?_, .cons (hmain.madeFrom (List.subset_append_left ..)) hmade⟩
  rw [List.flatten_cons, hidss, hmain.jumps, r.signs.1, Numeral.after_append]
  rfl

/-- A number in base 36 is read as what it was, and has one digit at least, no capital letter, and no zero
in front unless it is zero. Whatever definitions, scopes and units follow one another in a session, as many
numbers in a row as the counter has values without zero are all different. In a compiled program the numbers
of all units are one such row: first those of the main code, then those of each function. -/
theorem jump_numbers_canonical_distinct :
    (∀ n : UInt32, Numeral.ofChars? 36 (Numeral.base36 n).toList = some n.toNat ∧
      Numeral.base36 n ≠ "" ∧
      (∀ c ∈ (Numeral.base36 n).toList, '0' ≤ c ∧ c ≤ '9' ∨ 'a' ≤ c ∧ c ≤ 'z') ∧
      ((Numeral.base36 n).toList.head? = some '0' → n = 0)) ∧
    (∀ (options : Options) (defined : List (Place × Definition)) (s : Session),
      Session.Reached options defined s →
        ∃ first ids, Session.start options = .ok first ∧ first.Issues ids s) ∧
    (∀ (s t : Session) (ids : List String), s.Issues ids t → ids.length ≤ UInt32.size - 1 → ids.Nodup) ∧
    ∀ (options : Options) (program : Program) (c : Compiled), compile options program = .ok c →
      ∃ idss : List (List String), idss.flatten = Numeral.after 0 program.jumps ∧
        List.Forall₂ (Code.MadeFrom (Stmt.labelNames program.main ++
          program.functions.flatMap Function.labelNames)) c.assembly.units idss ∧
        (program.jumps ≤ UInt32.size - 1 → idss.flatten.Nodup) := by
  have hlt {n : Nat} (h : n ≤ UInt32.size - 1) : n < UInt32.size := Nat.lt_of_le_of_lt h (by decide)
  refine ⟨fun n => ?_, fun _ _ _ => Session.Reached.issues, fun s t ids h hlength => ?_,
    fun options program c h => ?_⟩
  · obtain ⟨digits, hdigits, hdigit, hvalue, hne, hhead⟩ := Numeral.toList_base36 n
    refine ⟨?_, fun hempty => ?_, fun c hc => ?_, fun hzero => hhead ?_⟩
    · rw [hdigits, Numeral.ofChars?_digitChar (by decide) hdigit, hvalue]
    · rw [hempty] at hdigits
      exact hne (List.map_eq_nil_iff.mp hdigits.symm)
    · rw [hdigits] at hc
      obtain ⟨d, hd, rfl⟩ := List.mem_map.mp hc
      exact Numeral.digitChar_lower (hdigit d hd)
    · rw [hdigits, List.head?_map, Option.map_eq_some_iff] at hzero
      obtain ⟨d, hd, hzero⟩ := hzero
      rw [hd, ((Numeral.digitChar_ne (hdigit d (List.mem_of_head? hd))).2.2.1).mp hzero]
  · rw [h.eq_after.1]
    exact Numeral.nodup_after (hlt hlength)
  · obtain ⟨r⟩ := exists_compilation h
    obtain ⟨idss, hidss, hmade⟩ := r.units_madeFrom
    exact ⟨idss, hidss, hmade, fun hjumps => hidss ▸ Numeral.nodup_after (hlt hjumps)⟩

end Flatword
