import Mathlib.Data.Nat.Digits.Defs

-- fixed-width little-endian integers in a stream of bytes

namespace Bytes

abbrev Byte := BitVec 8

def toBytes : ℕ → ℕ → List Byte
  | 0, _ => []
  | k + 1, n => BitVec.ofNat 8 n :: toBytes k (n / 256)

def ofBytes (bytes : List Byte) : ℕ := Nat.ofDigits 256 (bytes.map BitVec.toNat)

@[simp] theorem toBytes_length (k n : ℕ) : (toBytes k n).length = k := by
  induction k generalizing n with
  | zero => rfl
  | succ k ih => rw [toBytes, List.length_cons, ih]

theorem ofBytes_toBytes (k n : ℕ) : ofBytes (toBytes k n) = n % 256 ^ k := by
  induction k generalizing n with
  | zero => simp [toBytes, ofBytes, Nat.mod_one]
  | succ k ih =>
    have hstep : ofBytes (toBytes (k + 1) n) = n % 256 + 256 * ofBytes (toBytes k (n / 256)) := by
      simp [toBytes, ofBytes, Nat.ofDigits_cons]
    rw [hstep, ih, pow_succ', Nat.mod_mul]

def words (k : ℕ) : ℕ → List Byte → List ℕ
  | 0, _ => []
  | n + 1, bytes => ofBytes (bytes.take k) :: words k n (bytes.drop k)

def encode (k : ℕ) (v : List ℕ) : List Byte := v.flatMap (toBytes k)

theorem encode_length (k : ℕ) (v : List ℕ) : (encode k v).length = k * v.length := by
  induction v with
  | nil => rfl
  | cons n v ih =>
    rw [encode, List.flatMap_cons, List.length_append, toBytes_length]
    rw [encode] at ih
    rw [ih, List.length_cons, Nat.mul_succ, Nat.add_comm]

theorem words_encode {k : ℕ} {v : List ℕ} (h : ∀ n ∈ v, n < 256 ^ k) :
    words k v.length (encode k v) = v := by
  induction v with
  | nil => rfl
  | cons n v ih =>
    have htake : (encode k (n :: v)).take k = toBytes k n := by
      rw [encode, List.flatMap_cons, List.take_left' (toBytes_length k n)]
    have hdrop : (encode k (n :: v)).drop k = encode k v := by
      rw [encode, List.flatMap_cons, List.drop_left' (toBytes_length k n), encode]
    rw [List.length_cons, words, htake, hdrop, ofBytes_toBytes,
      Nat.mod_eq_of_lt (h n (List.mem_cons_self ..)), ih fun m hm => h m (List.mem_cons_of_mem _ hm)]

end Bytes
