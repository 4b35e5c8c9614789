import Relational.Catalog.System
import Relational.Compile.Literal
import Relational.Proofs.Compile.Conversion

/-!
# Integers as literals

Integers come in words of several sizes. Types with integers or decimal numbers for values take them as
signed words of 64 bits, of which the unsigned words of that size are not all.
-/

namespace Relational

open Integer

/-- The integers that have a representation. -/
def IntegerKind.Holds : IntegerKind → Int → Prop
  | int8, n => -0x80 ≤ n ∧ n < 0x80
  | int16, n => -0x8000 ≤ n ∧ n < 0x8000
  | int32, n => -0x80000000 ≤ n ∧ n < 0x80000000
  | int, n | int64, n => -(limit64 : Int) ≤ n ∧ n < limit64
  | uint8, n => 0 ≤ n ∧ n < 0x100
  | uint16, n => 0 ≤ n ∧ n < 0x10000
  | uint32, n => 0 ≤ n ∧ n < 0x100000000
  | uint, n | uint64, n => 0 ≤ n ∧ n < 2 * limit64

variable {kind : IntegerKind} {n : Int}

theorem IntegerKind.Holds.bounds (h : kind.Holds n) : -(limit64 : Int) ≤ n ∧ n < 2 * limit64 := by
  cases kind <;> simp only [Holds, limit64] at h ⊢ <;> omega

theorem IntegerKind.Holds.isUnsigned (h : kind.Holds n) (hn : limit64 ≤ n) :
    kind = .uint ∨ kind = .uint64 := by
  cases kind <;> simp only [Holds, limit64, reduceCtorEq, or_true, or_false] at h hn ⊢ <;>
    omega

theorem Integer.wrap64_of_lt (h : -(limit64 : Int) ≤ n) (hn : n < limit64) : wrap64 n = n :=
  Int.bmod_eq_of_le_mul_two (by omega) (by omega)

theorem Integer.wrap64_of_le (h : limit64 ≤ n) (hn : n < 2 * limit64) : wrap64 n = n - 2 * limit64 := by
  have hsub : wrap64 n = wrap64 (n - 2 * limit64) := (Int.sub_bmod_right n (2 * limit64)).symm
  rw [hsub, wrap64_of_lt (by omega) (by omega)]

theorem Value.normalize_integer {native : NativeKind} (h : native = .integer ∨ native = .decimal) :
    (Value.integer kind n).normalize native = .ok (if native = .integer then
      .integer .int64 (wrap64 n) else .decimal (.ofInt (wrap64 n))) := by
  rcases h with rfl | rfl <;> rfl

/-- An integer is compiled to a literal if its type is found and has integers or decimal numbers for
values. The literal has this integer, unless it is an unsigned word that is no signed one: then it has the
signed word with the same bits. -/
theorem compileLiteral_integer (e : Environment) (position : Position) (typeName : String) (b : Builder)
    (hn : kind.Holds n) :
    (∀ abort b', literalType e position (.integer kind n) typeName b = (.error abort, b') →
      compileLiteral e position (.integer kind n) typeName b = (.error abort, b')) ∧
    ∀ type b', literalType e position (.integer kind n) typeName b = (.ok type, b') →
      nativeKind type = .integer ∨ nativeKind type = .decimal →
      ∃ m, compileLiteral e position (.integer kind n) typeName b =
          (.ok (.make (.literal (if nativeKind type = .integer then .integer .int64 m
            else .decimal (.ofInt m))) (some type) position []), b') ∧
        (m = n ↔ n < limit64) ∧
        (m ≠ n → m = n - 2 * limit64 ∧ (kind = .uint ∨ kind = .uint64)) := by
  have hnil : ¬((Value.integer kind n).isNil ∧ typeName = "") := by simp [Value.isNil]
  refine ⟨fun abort b' hfound => ?_, fun type b' hfound hnative => ⟨wrap64 n, ?_, ?_⟩⟩
  · rw [compileLiteral, if_neg hnil, bind_apply, hfound]
  · rw [compileLiteral, if_neg hnil, bind_apply, hfound]
    simp only [Value.normalize_integer hnative]
    rfl
  · obtain ⟨hlow, hhigh⟩ := hn.bounds
    rcases Int.lt_or_le n limit64 with hlt | hle
    · rw [wrap64_of_lt hlow hlt]
      exact ⟨iff_of_true rfl hlt, fun hne => absurd rfl hne⟩
    · rw [wrap64_of_le hle hhigh]
      exact ⟨by omega, fun _ => ⟨rfl, hn.isUnsigned hle⟩⟩

/-- A builder that knows the type of integers. -/
def integerBuilder : Builder :=
  .start {} { catalog := (({} : Catalog).addScalarType SystemLibrary.integer).catalog }

/-- The least integer beyond the signed words. -/
theorem compileLiteral_integer_limit : ∃ m,
    compileLiteral (.alone false) .none (.integer .uint64 limit64) "" integerBuilder =
      (.ok (.make (.literal (.integer .int64 m)) (some (.scalar SystemLibrary.integer)) .none []),
        integerBuilder) ∧ m ≠ limit64 := by
  obtain ⟨m, hcompile, hm, -⟩ := (compileLiteral_integer (.alone false) .none "" integerBuilder
    (show IntegerKind.uint64.Holds limit64 from ⟨by decide, by decide⟩)).2
      (.scalar SystemLibrary.integer) integerBuilder rfl (.inl rfl)
  exact ⟨m, hcompile, fun h => by cases hm.mp h⟩

/-- The greatest unsigned word becomes a negative integer, and nothing is reported. -/
theorem compileLiteral_wraps : IntegerKind.uint64.Holds (2 * limit64 - 1) ∧
    compileLiteral (.alone false) .none (.integer .uint64 (2 * limit64 - 1)) "" integerBuilder =
      (.ok (.make (.literal (.integer .int64 (-1))) (some (.scalar SystemLibrary.integer)) .none []),
        integerBuilder) :=
  ⟨⟨by decide, by decide⟩, rfl⟩

end Relational
