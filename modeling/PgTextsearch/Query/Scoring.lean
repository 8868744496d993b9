import Mathlib.Algebra.Order.Field.Basic
import Mathlib.Algebra.Order.Field.Rat
import Mathlib.Tactic.FieldSimp
import Mathlib.Tactic.Linarith
import Mathlib.Tactic.Positivity
import PgTextsearch.Segment.Fieldnorm

/-!
# BM25 scoring over exact rationals (`rust/src/scoring.rs`)

The two scoring kernels: the score of one posting and the upper bound the
reader derives from a skip entry.  They are one formula, applied to a posting's
own frequency and length and to the block maxima respectively; both facts that
matter about it are monotonicity facts in the frequency and in the length.
-/

namespace PgTextsearch.Query

open PgTextsearch.Segment

/-- `bm25_score`. -/
def bm25Score (idf : ℚ) (tf dl : ℤ) (k1 b avgdl : ℚ) : ℚ :=
  let lenNorm := 1 - b + b * ((dl : ℚ) / avgdl)
  let tfComponent := ((tf : ℚ) * (k1 + 1)) / ((tf : ℚ) + k1 * lenNorm)
  idf * tfComponent

/-- `block_max_score`: the same formula on the block maxima. -/
def blockMaxScore (maxTf : Nat) (maxNorm : Fin 256) (idf k1 b avgdl : ℚ) : ℚ :=
  let dl := decodeFieldnorm maxNorm
  let lenNorm := 1 - b + b * ((dl : ℚ) / avgdl)
  let tfComponent := ((maxTf : ℚ) * (k1 + 1)) / ((maxTf : ℚ) + k1 * lenNorm)
  idf * tfComponent

/-- The ranking parameters of one index: `k1` and `b` are reloptions with range
`[0.1, 10]` and `[0, 1]`, and `tp_score_documents` returns before scoring unless
the average length is positive. -/
structure ScoreParams where
  k1 : ℚ
  b : ℚ
  avgDocLen : ℚ
  k1_pos : 0 < k1
  b_nonneg : 0 ≤ b
  b_le_one : b ≤ 1
  avg_pos : 0 < avgDocLen

namespace ScoreParams

variable (P : ScoreParams)

/-- `compute_bm25_score` with the parameters of the index. -/
def score (idf : ℚ) (tf dl : ℤ) : ℚ := bm25Score idf tf dl P.k1 P.b P.avgDocLen

/-- `tp_compute_block_max_score` with the parameters of the index. -/
def blockMax (idf : ℚ) (maxTf : Nat) (maxNorm : Fin 256) : ℚ :=
  blockMaxScore maxTf maxNorm idf P.k1 P.b P.avgDocLen

/-- The length normaliser of the formula. -/
def lenNorm (dl : Nat) : ℚ := 1 - P.b + P.b * ((dl : ℚ) / P.avgDocLen)

theorem lenNorm_nonneg (dl : Nat) : 0 ≤ P.lenNorm dl := by
  have h1 : 0 ≤ 1 - P.b := by linarith [P.b_le_one]
  have h2 : 0 ≤ P.b * ((dl : ℚ) / P.avgDocLen) :=
    mul_nonneg P.b_nonneg (div_nonneg (Nat.cast_nonneg dl) P.avg_pos.le)
  exact add_nonneg h1 h2

theorem blockMax_eq_score (idf : ℚ) (maxTf : Nat) (maxNorm : Fin 256) :
    P.blockMax idf maxTf maxNorm = P.score idf maxTf (decodeFieldnorm maxNorm) := rfl

theorem score_eq (idf : ℚ) (tf dl : Nat) :
    P.score idf tf dl = idf * (((tf : ℚ) * (P.k1 + 1)) / ((tf : ℚ) + P.k1 * P.lenNorm dl)) := by
  simp [score, bm25Score, lenNorm]

theorem denom_nonneg (tf dl : Nat) : 0 ≤ (tf : ℚ) + P.k1 * P.lenNorm dl :=
  add_nonneg (Nat.cast_nonneg tf) (mul_nonneg P.k1_pos.le (P.lenNorm_nonneg dl))

theorem denom_pos {tf : Nat} (dl : Nat) (htf : 0 < tf) :
    0 < (tf : ℚ) + P.k1 * P.lenNorm dl :=
  add_pos_of_pos_of_nonneg (Nat.cast_pos.2 htf)
    (mul_nonneg P.k1_pos.le (P.lenNorm_nonneg dl))

theorem score_nonneg {idf : ℚ} (hidf : 0 ≤ idf) (tf dl : Nat) :
    0 ≤ P.score idf tf dl := by
  rw [score_eq]
  have hk : 0 ≤ P.k1 + 1 := by linarith [P.k1_pos]
  exact mul_nonneg hidf (div_nonneg (mul_nonneg (Nat.cast_nonneg tf) hk)
    (P.denom_nonneg tf dl))

theorem score_pos {idf : ℚ} (hidf : 0 < idf) {tf : Nat} (dl : Nat) (htf : 0 < tf) :
    0 < P.score idf tf dl := by
  rw [score_eq]
  have hk : 0 < P.k1 + 1 := by linarith [P.k1_pos]
  exact mul_pos hidf (div_pos (mul_pos (Nat.cast_pos.2 htf) hk) (P.denom_pos dl htf))

@[simp] theorem score_zero_tf (idf : ℚ) (dl : ℤ) : P.score idf 0 dl = 0 := by
  simp [score, bm25Score]

theorem score_zero_idf (tf dl : ℤ) : P.score 0 tf dl = 0 := by
  simp [score, bm25Score]

/-- Cross-multiplied comparison of two scores of one term: frequencies weigh
against the *other* side's length. -/
theorem score_le_score_iff {idf : ℚ} (hidf : 0 < idf) {tf tf' : Nat} (dl dl' : Nat)
    (htf' : 0 < tf') :
    P.score idf tf dl ≤ P.score idf tf' dl' ↔
      (tf : ℚ) * P.lenNorm dl' ≤ (tf' : ℚ) * P.lenNorm dl := by
  rcases Nat.eq_zero_or_pos tf with rfl | htf
  · have h1 : 0 ≤ P.score idf tf' dl' := P.score_nonneg hidf.le tf' dl'
    have h2 : 0 ≤ (tf' : ℚ) * P.lenNorm dl :=
      mul_nonneg (Nat.cast_nonneg tf') (P.lenNorm_nonneg dl)
    simpa using ⟨fun _ => h2, fun _ => h1⟩
  · have hk : 0 < P.k1 + 1 := by linarith [P.k1_pos]
    rw [score_eq, score_eq, mul_le_mul_iff_right₀ hidf,
      div_le_div_iff₀ (P.denom_pos dl htf) (P.denom_pos dl' htf')]
    have hexp : (tf : ℚ) * (P.k1 + 1) * ((tf' : ℚ) + P.k1 * P.lenNorm dl') ≤
        (tf' : ℚ) * (P.k1 + 1) * ((tf : ℚ) + P.k1 * P.lenNorm dl) ↔
        (P.k1 + 1) * P.k1 * ((tf : ℚ) * P.lenNorm dl') ≤
          (P.k1 + 1) * P.k1 * ((tf' : ℚ) * P.lenNorm dl) := by
      constructor <;> intro h <;> linarith
    rw [hexp, mul_le_mul_iff_right₀ (mul_pos hk P.k1_pos)]

theorem lenNorm_mono {dl dl' : Nat} (h : dl ≤ dl') : P.lenNorm dl ≤ P.lenNorm dl' := by
  have hdiv : (dl : ℚ) / P.avgDocLen ≤ (dl' : ℚ) / P.avgDocLen :=
    div_le_div_of_nonneg_right (Nat.cast_le.2 h) P.avg_pos.le
  have hmul := mul_le_mul_of_nonneg_left hdiv P.b_nonneg
  unfold lenNorm
  linarith

/-- The length matters unless `b` is zero. -/
theorem lenNorm_inj {dl dl' : Nat} : P.lenNorm dl = P.lenNorm dl' ↔ P.b = 0 ∨ dl = dl' := by
  unfold lenNorm
  rw [add_right_inj, mul_eq_mul_left_iff, div_left_inj' P.avg_pos.ne', Nat.cast_inj, or_comm]

/-- Two scores of one frequency, the first weighed, compared by their denominators. -/
theorem score_mul_eq_score_iff {idf : ℚ} (hidf : 0 < idf) {tf : Nat} (htf : 0 < tf)
    (weight dl dl' : Nat) :
    P.score idf tf dl * weight = P.score idf tf dl' ↔
      (weight : ℚ) * ((tf : ℚ) + P.k1 * P.lenNorm dl') = (tf : ℚ) + P.k1 * P.lenNorm dl := by
  have hnum : (0 : ℚ) < (tf : ℚ) * (P.k1 + 1) :=
    mul_pos (Nat.cast_pos.2 htf) (by linarith [P.k1_pos])
  rw [score_eq, score_eq, mul_assoc, mul_right_inj' hidf.ne', div_mul_eq_mul_div,
    div_eq_div_iff (P.denom_pos dl htf).ne' (P.denom_pos dl' htf).ne', mul_assoc,
    mul_right_inj' hnum.ne']

/-- A longer document never scores more. -/
theorem score_anti {idf : ℚ} (hidf : 0 < idf) (tf : Nat) {dl dl' : Nat} (h : dl ≤ dl') :
    P.score idf tf dl' ≤ P.score idf tf dl := by
  cases Nat.eq_zero_or_pos tf with
  | inl hzero =>
      subst hzero
      simp
  | inr htf =>
      rw [P.score_le_score_iff hidf dl' dl htf]
      exact mul_le_mul_of_nonneg_left (P.lenNorm_mono h) (Nat.cast_nonneg tf)

end ScoreParams

end PgTextsearch.Query
