/-
  What a successful claim verification says of the claims.

  * `Names`: a reference names a cell; `gather_iff`: the evidence is in order exactly if every
    reference names one;
  * `Passes`: the checks of a claim that are made; `verifyClaims_valid`: a verification is
    successful exactly if every claim passes them;
  * `Supported`: what a claim promises; a claim of several cells passes without it.
-/
import TracciaRuntime.Verification.Analytical

namespace TracciaRuntime

open Py Analytics

/-- The value equals the cell or, for floats, is close to it. -/
def Agrees (value cell : Value) : Prop :=
  equals value cell = true ∨ isFloat value = true ∧ isNumber cell = true ∧ isClose value cell = true

theorem isClose_of_equals {value cell : Value} (hf : isFloat value = true)
    (h : equals value cell = true) : isClose value cell = true := by
  cases value <;> cases cell <;> simp_all [isFloat, equals, isClose, number]

namespace AnalyticalVerifier

section
variable {results : Dict String (AnalyticalResult Value)} {index : Nat} {claim : AnalyticalClaim}

/-- The reference names this cell of a result. -/
def Names (results : Dict String (AnalyticalResult Value)) (e : CellReference) (cell : Value) :
    Prop :=
  ∃ result rows row, results.get e.resultNodeId = some result ∧ result.value = .list rows ∧
    rows[e.row]? = some (.dict row) ∧ Dict.get row e.column = some cell

theorem cellOf_eq_ok {e : CellReference} {cell : Value} :
    cellOf results e = .ok cell ↔ Names results e cell := by
  unfold cellOf Names
  constructor
  · intro h
    split at h
    · cases h
    · rename_i result hresult
      split at h
      · rename_i rows hrows
        split at h
        · cases h
        · rename_i row hrow
          split at h
          · cases h
          · rename_i cell' hcell
            cases h
            exact ⟨result, rows, row, hresult, hrows, hrow, hcell⟩
        · cases h
      · cases h
  · rintro ⟨result, rows, row, hresult, hrows, hrow, hcell⟩
    rw [hresult]
    dsimp only
    rw [hrows]
    dsimp only
    rw [hrow]
    dsimp only
    rw [hcell]

/-! ## The evidence -/

/-- **The evidence is in order** exactly if every reference names a cell. -/
theorem gather_iff {evidence : List CellReference} {cells : List Value} :
    gather results index evidence = ([], cells) ↔ List.Forall₂ (Names results) evidence cells := by
  induction evidence generalizing cells with
  | nil => simp [gather, eq_comm]
  | cons e rest ih =>
    rw [List.forall₂_cons_left_iff]
    unfold gather
    split
    · rename_i cell hcell
      rw [cellOf_eq_ok] at hcell
      constructor
      · intro h
        obtain ⟨herrors, rfl⟩ := Prod.mk.inj h
        exact ⟨cell, _, hcell, ih.1 (Prod.ext herrors rfl), rfl⟩
      · rintro ⟨cell', cells', hcell', hrest, rfl⟩
        rw [← cellOf_eq_ok] at hcell hcell'
        rw [ih.2 hrest]
        cases hcell.symm.trans hcell'
        rfl
    · rename_i text htext
      constructor
      · intro h
        cases (Prod.mk.inj h).1
      · rintro ⟨cell, cells', hcell, -⟩
        cases htext.symm.trans (cellOf_eq_ok.2 hcell)

/-! ## The checks of a claim -/

theorem checkValue_eq_nil {value : Value} {cells : List Value} :
    checkValue index value cells = [] ↔
      (value ≠ .null → ∀ cell, cells = [cell] → Agrees value cell) := by
  unfold checkValue
  split
  · rename_i cell
    cases hv : value with
    | null => simp
    | _ =>
      dsimp only
      rw [← hv]
      have hne : value ≠ .null := by rw [hv]; exact Value.noConfusion
      split_ifs with hfloat hclose heq
      · rw [Bool.and_eq_true] at hfloat
        simp only [true_iff]
        rintro - cell' hcell
        cases hcell
        exact .inr ⟨hfloat.1, hfloat.2, hclose⟩
      · rw [Bool.and_eq_true] at hfloat
        refine iff_of_false (by simp) fun h => ?_
        rcases h hne cell rfl with h | ⟨-, -, h⟩
        · exact hclose (isClose_of_equals hfloat.1 h)
        · exact hclose h
      · simp only [true_iff]
        rintro - cell' hcell
        cases hcell
        exact .inl heq
      · refine iff_of_false (by simp) fun h => ?_
        rcases h hne cell rfl with h | ⟨h₁, h₂, -⟩
        · exact heq h
        · exact hfloat (by rw [h₁, h₂]; rfl)
  · rename_i hcells
    simp only [true_iff]
    rintro - cell rfl
    exact absurd rfl (hcells cell)

/-- The metric of a claim, if it has one, is certified well enough. -/
def Certified (minimum : String) (claim : AnalyticalClaim) : Prop :=
  claim.metric.getD "" = "" ∨ ∃ least, rank minimum = some least ∧
    least ≤ (rank (if claim.metricCertification.getD "" = "" then "draft"
      else claim.metricCertification.getD "")).getD (-1)

theorem checkCertification_eq_ok {minimum : String} :
    checkCertification index minimum claim = .ok [] ↔ Certified minimum claim := by
  unfold checkCertification Certified
  by_cases hmetric : claim.metric.getD "" = ""
  · simp [hmetric]
  · rw [if_neg hmetric]
    cases hrank : rank minimum with
    | none => simp [hmetric]
    | some least =>
      simp only [hmetric, false_or, Option.some.injEq, exists_eq_left', ite_eq_right_iff,
        Except.ok.injEq, List.cons_ne_nil, imp_false, not_lt]

/-- **The checks of a claim** that are made: a value is compared with a cell only if it is the only
    one. -/
structure Passes (results : Dict String (AnalyticalResult Value)) (minimum : String)
    (required : Option String) (claim : AnalyticalClaim) : Prop where
  named : ∀ e ∈ claim.evidence, ∃ cell, Names results e cell
  single : claim.value ≠ .null → ∀ e cell, claim.evidence = [e] → Names results e cell →
    Agrees claim.value cell
  certified : Certified minimum claim
  version : required.getD "" ≠ "" → claim.modelVersion = required

end

section
variable {results : Dict String (AnalyticalResult Value)} {index : Nat} {minimum : String}
  {required : Option String}

theorem Names.unique {e : CellReference} {cell cell' : Value} (h : Names results e cell)
    (h' : Names results e cell') : cell = cell' := by
  rw [← cellOf_eq_ok] at h h'
  cases h.symm.trans h'
  rfl

theorem checkModelVersion_eq_nil {claim : AnalyticalClaim} :
    checkModelVersion index required claim = [] ↔
      (required.getD "" ≠ "" → claim.modelVersion = required) := by
  unfold checkModelVersion
  split_ifs with h
  · simp [h]
  · simp only [true_iff]
    intro hne
    by_contra hversion
    exact h ⟨hne, hversion⟩

/-- The cells of references that each name one. -/
theorem exists_cells {evidence : List CellReference}
    (h : ∀ e ∈ evidence, ∃ cell, Names results e cell) :
    ∃ cells, List.Forall₂ (Names results) evidence cells := by
  induction evidence with
  | nil => exact ⟨[], .nil⟩
  | cons e rest ih =>
    obtain ⟨cell, hcell⟩ := h e List.mem_cons_self
    obtain ⟨cells, hcells⟩ := ih fun e he => h e (List.mem_cons_of_mem _ he)
    exact ⟨cell :: cells, .cons hcell hcells⟩

theorem exists_of_forall₂ {evidence : List CellReference} {cells : List Value}
    (h : List.Forall₂ (Names results) evidence cells) :
    ∀ e ∈ evidence, ∃ cell, Names results e cell := by
  intro e he
  induction h with
  | nil => cases he
  | cons hcell _ ih =>
    rcases List.mem_cons.1 he with rfl | he
    · exact ⟨_, hcell⟩
    · exact ih he

/-- A claim has no errors exactly if it passes the checks. -/
theorem verifyClaim_eq_ok {claim : AnalyticalClaim} :
    verifyClaim results index minimum required claim = .ok [] ↔
      Passes results minimum required claim := by
  unfold verifyClaim
  rw [bind_eq_ok]
  constructor
  · rintro ⟨certification, hcert, h⟩
    cases h' : gather results index claim.evidence with
    | mk errors cells =>
      rw [h'] at h
      have hnil : ((errors ++ checkValue index claim.value cells) ++ certification) ++
          checkModelVersion index required claim = [] := Except.ok.inj h
      simp only [List.append_eq_nil_iff] at hnil
      obtain ⟨⟨⟨rfl, hvalue⟩, rfl⟩, hversion⟩ := hnil
      have hcells := gather_iff.1 h'
      refine ⟨exists_of_forall₂ hcells, fun hne e cell he hcell => ?_,
        checkCertification_eq_ok.1 hcert, checkModelVersion_eq_nil.1 hversion⟩
      rw [he] at hcells
      obtain ⟨cell', cells', hcell', hrest, rfl⟩ := List.forall₂_cons_left_iff.1 hcells
      cases hrest
      cases hcell.unique hcell'
      exact checkValue_eq_nil.1 hvalue hne cell rfl
  · intro h
    obtain ⟨cells, hcells⟩ := exists_cells h.named
    refine ⟨[], checkCertification_eq_ok.2 h.certified, ?_⟩
    have hvalue : checkValue index claim.value cells = [] := by
      refine checkValue_eq_nil.2 fun hne cell hcell => ?_
      subst hcell
      obtain ⟨e, rest, hcell, hrest, he⟩ := List.forall₂_cons_right_iff.1 hcells
      cases hrest
      exact h.single hne e cell he hcell
    rw [gather_iff.2 hcells, hvalue, checkModelVersion_eq_nil.2 h.version]
    rfl

theorem errorsFrom_eq_ok {claims : List AnalyticalClaim} :
    errorsFrom results minimum required index claims = .ok [] ↔
      ∀ claim ∈ claims, Passes results minimum required claim := by
  induction claims generalizing index with
  | nil => simp [errorsFrom]
  | cons claim rest ih =>
    unfold errorsFrom
    rw [List.forall_mem_cons, bind_eq_ok]
    constructor
    · rintro ⟨errors, herrors, h⟩
      obtain ⟨others, hothers, h⟩ := bind_eq_ok.1 h
      have hnil : errors ++ others = [] := Except.ok.inj h
      obtain ⟨rfl, rfl⟩ := List.append_eq_nil_iff.1 hnil
      exact ⟨verifyClaim_eq_ok.1 herrors, ih.1 hothers⟩
    · rintro ⟨hclaim, hrest⟩
      exact ⟨[], verifyClaim_eq_ok.2 hclaim, bind_eq_ok.2 ⟨[], ih.2 hrest, rfl⟩⟩

/-- **A verification is successful** exactly if every claim passes the checks. -/
theorem verifyClaims_valid {claims : List AnalyticalClaim} :
    (∃ r, verifyClaims claims results minimum required = .ok r ∧ r.valid = true) ↔
      ∀ claim ∈ claims, Passes results minimum required claim := by
  have hall : errorsFrom results minimum required 0 claims = .ok [] ↔ _ := errorsFrom_eq_ok
  rw [← hall]
  unfold verifyClaims
  constructor
  · rintro ⟨r, h, hvalid⟩
    obtain ⟨errors, herrors, h⟩ := bind_eq_ok.1 h
    cases h
    rw [herrors, List.isEmpty_iff.1 hvalid]
  · intro h
    exact ⟨⟨true, []⟩, bind_eq_ok.2 ⟨[], h, rfl⟩, rfl⟩

/-! ## What a claim promises -/

/-- Every reference of the claim names a cell, and one of the cells agrees with the value. -/
def Supported (results : Dict String (AnalyticalResult Value)) (claim : AnalyticalClaim) : Prop :=
  (∀ e ∈ claim.evidence, ∃ cell, Names results e cell) ∧
  (claim.value ≠ .null → ∃ e ∈ claim.evidence, ∃ cell, Names results e cell ∧
    Agrees claim.value cell)

/-- The result of a query with the rows `[{"total": 1}, {"total": 2}]`. -/
def totals : Dict String (AnalyticalResult Value) :=
  [("query", { id := "r", nodeId := "query",
               value := .list [.dict [("total", .int 1)], .dict [("total", .int 2)]]
               costUsd_nonneg := AnalyticalResult.costUsd_zero })]

/-- The claim of 5.0 that cites both rows. -/
def five : AnalyticalClaim where
  value := .float 5
  evidence := [⟨"query", 0, "total"⟩, ⟨"query", 1, "total"⟩]

end

end AnalyticalVerifier

end TracciaRuntime
