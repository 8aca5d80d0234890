/-
The integer codings of `serialize.h`: counts of what follows (`WriteCompactSize`) and groups of
seven bits (`WriteVarInt`), with their computed lengths.
-/
import Catoshi.BlockTxnRequest

namespace Catoshi

open ByteStream

def getSizeOfCompactSize (nSize : ℕ) : ℕ :=
  if nSize < 253 then 1 else if nSize < 2 ^ 16 then 3 else if nSize < 2 ^ 32 then 5 else 9

def getSizeOfVarInt (n : ℕ) : ℕ :=
  if n ≤ 0x7F then 1 else 1 + getSizeOfVarInt (n / 128 - 1)

theorem length_write_compactSize (n : ℕ) :
    (CompactSize.write n).length = getSizeOfCompactSize n := by
  rw [CompactSize.write, getSizeOfCompactSize]
  split_ifs <;> simp

theorem length_before (n : ℕ) : (VarInt.before (n + 1)).length = getSizeOfVarInt n := by
  induction n using Nat.strong_induction_on with
  | _ n ih =>
    have hgroup := @VarInt.before_group (n % 128) (n / 128) (Nat.mod_lt n (by decide))
    rw [Nat.div_add_mod'] at hgroup
    rw [hgroup, List.length_append, List.length_singleton, getSizeOfVarInt]
    split_ifs with hone
    · rw [Nat.div_eq_of_lt (by omega)]
      rfl
    · have hnext := ih (n / 128 - 1) (by omega)
      rw [Nat.sub_add_cancel (by omega)] at hnext
      omega

theorem length_write_varInt (n : ℕ) : (VarInt.write n).length = getSizeOfVarInt n := by
  have hlow := Nat.mod_lt n (by decide : 0 < 128)
  rw [← length_before, ← Nat.div_add_mod' n 128, VarInt.write_group hlow, VarInt.before_group hlow]
  simp

/-- Both codings are one-to-one between the numbers and what is read. -/
theorem integer_codings_bijective :
    Coding (2 ^ 64 - 1) (VarInt.read (2 ^ 64 - 1)) VarInt.write ∧
    (∀ n < 2 ^ 64, (VarInt.write n).length = getSizeOfVarInt n) ∧
    Coding maxSize (CompactSize.read maxSize) CompactSize.write ∧
    ∀ n < 2 ^ 64, (CompactSize.write n).length = getSizeOfCompactSize n := by
  refine ⟨.of_reads (fun n hn => VarInt.reads_write hn) ?_, fun n _ => length_write_varInt n,
    .of_reads ?_ fun bytes n rest => CompactSize.eq_of_read,
    fun n _ => length_write_compactSize n⟩
  · exact fun bytes n rest => VarInt.eq_of_readOn (by decide)
  · exact fun n hn => CompactSize.reads_write hn (hn.trans_lt (by decide))

end Catoshi
