import Mathlib
import Clausal.Proofs.Decomposition
import Clausal.Proofs.Uses

/-!
# Sums and products of words

The decomposition of an addition or a multiplication is a circuit for the sum or the
product modulo a power of two. The two words may be narrower or wider than the result:
digits that a word does not have are zero, and those beyond the result are left out.

`Pool.Computes` says what such a circuit owes. The digits themselves are in
`Clausal.Proofs.Circuits`.
-/

namespace Clausal

namespace Pool

/-- Decomposing an operator on two words gives a word of a width, and its number is a
function of the numbers of the words, whenever these have values. -/
def Computes (pool : Pool) (op : Op) (a b : ExprId) (width : Nat) (operation : Nat → Nat → Nat) :
    Prop :=
  ∃ e after, Rules.decompose op [a, b] pool = .ok (some e) after ∧ after.ty e = .ok (.uint width) ∧
    ∀ env x y, pool.evaluate a env = .ok (.uint x) → pool.evaluate b env = .ok (.uint y) →
      after.evaluate e env = .ok (.uint (operation x y))

section Words

variable {pool : Pool} {a b : ExprId} {left right width : Nat} (typed : pool.WellTyped)
  (leftWord : pool.HasTy a (.uint left)) (rightWord : pool.HasTy b (.uint right))
include typed leftWord rightWord

/-- A circuit that an operator is decomposed to computes what its digits say. The words
fit their widths, so none of their digits is lost. -/
theorem computes_of_circuit {op : Op} {circuit : Build ExprId} {level : Nat}
    {operation : Nat → Nat → Nat} (decomposed : Rules.decompose op [a, b] = some <$> circuit)
    (yields : Build.Yields circuit pool fun e after =>
      Circuit.IsCircuit after level width a b left right operation e) :
    pool.Computes op a b width operation := by
  obtain ⟨e, after, ended, advances, isCircuit⟩ := yields.exists_ok
  obtain ⟨digits, stored, -⟩ := isCircuit.exists_digits
  refine ⟨e, after, ?_, ty_eq_ok_iff.mpr ⟨_, stored⟩, fun env x y xValue yValue => ?_⟩
  · rw [decomposed, map_eq_pure_bind]
    exact Stateful.bind_eq_ok.mpr ⟨e, after, ended, rfl⟩
  · have extension := advances.extension
    have xFits := typed.admits leftWord xValue
    have yFits := typed.admits rightWord yValue
    rw [← extension.evaluate_eq leftWord.has] at xValue
    rw [← extension.evaluate_eq rightWord.has] at yValue
    refine isCircuit.means xValue ?_ yValue ?_
    · exact bitLength_le_iff.mp (by simpa [Ty.admits] using xFits)
    · exact bitLength_le_iff.mp (by simpa [Ty.admits] using yFits)

variable (positive : 0 < width)
include positive

theorem computes_add : pool.Computes (.add width) a b width fun x y => (x + y) % 2 ^ width := by
  obtain ⟨leftLow, rightLow⟩ := Rules.rank_le_peak_pair pool a b
  exact computes_of_circuit typed leftWord rightWord rfl
    (Circuit.add_yields leftWord rightWord leftLow rightLow positive)

theorem computes_mul : pool.Computes (.mul width) a b width fun x y => x * y % 2 ^ width := by
  obtain ⟨leftLow, rightLow⟩ := Rules.rank_le_peak_pair pool a b
  exact computes_of_circuit typed leftWord rightWord rfl
    (Circuit.mul_yields leftWord rightWord leftLow rightLow positive)

end Words

end Pool

namespace Workspace

variable {workspace : Workspace PassMemory} {a b : ExprId} {left right width : Nat}

/-- In every workspace, whatever operations led to it, the decompositions of an addition
and of a multiplication of any two words are the sum and the product modulo the power
of two of the width. -/
theorem Used.arithmetic_computes (used : workspace.Used)
    (leftWord : workspace.pool.ty a = .ok (.uint left))
    (rightWord : workspace.pool.ty b = .ok (.uint right)) (positive : 1 ≤ width) :
    workspace.pool.Computes (.add width) a b width (fun x y => (x + y) % 2 ^ width) ∧
      workspace.pool.Computes (.mul width) a b width fun x y => x * y % 2 ^ width := by
  have typed := used.coherent.typed
  rw [Pool.ty_eq_ok_iff] at leftWord rightWord
  exact ⟨Pool.computes_add typed leftWord rightWord positive,
    Pool.computes_mul typed leftWord rightWord positive⟩

/-- Four digits of the sum and the product of a wider and a narrower word. -/
theorem arithmetic_computes_mixed :
    ∃ (workspace : Workspace PassMemory) (a b sum product : ExprId) (summed multiplied : Pool),
      workspace.Used ∧ workspace.pool.ty a = .ok (.uint 5) ∧ workspace.pool.ty b = .ok (.uint 2) ∧
      Rules.decompose (.add 4) [a, b] workspace.pool = .ok (some sum) summed ∧
      Rules.decompose (.mul 4) [a, b] workspace.pool = .ok (some product) multiplied ∧
      summed.evaluate sum (fun _ => some (.uint 27)) = .ok (.uint 14) ∧
      multiplied.evaluate product (fun _ => some (.uint 27)) = .ok (.uint 1) := by
  obtain ⟨first, a, firstReachable, aStored⟩ :=
    exists_reachable_variable "x" (show (Ty.uint 5).Sized from Nat.succ_pos 4)
  obtain ⟨workspace, b, reachable, extension, bStored⟩ :=
    firstReachable.exists_built (.word 2 3) (Build.word_yields (by decide) (by decide))
  replace aStored := extension aStored
  have used := reachable.evolved.used
  have aTy : workspace.pool.ty a = .ok (.uint 5) := Pool.ty_eq_ok_iff.mpr ⟨_, aStored⟩
  have bTy : workspace.pool.ty b = .ok (.uint 2) := Pool.ty_eq_ok_iff.mpr ⟨_, bStored⟩
  have aValue : workspace.pool.evaluate a (fun _ => some (.uint 27)) = .ok (.uint 27) :=
    (Pool.evaluate_var aStored).mpr ⟨rfl, by decide⟩
  have bValue : workspace.pool.evaluate b (fun _ => some (.uint 27)) = .ok (.uint 3) :=
    Pool.evaluate_const bStored
  obtain ⟨⟨sum, summed, isSum, -, sums⟩, product, multiplied, isProduct, -, multiplies⟩ :=
    used.arithmetic_computes aTy bTy (show 1 ≤ 4 by decide)
  exact ⟨workspace, a, b, sum, product, summed, multiplied, used, aTy, bTy, isSum, isProduct,
    sums _ _ _ aValue bValue, multiplies _ _ _ aValue bValue⟩

end Workspace

end Clausal
