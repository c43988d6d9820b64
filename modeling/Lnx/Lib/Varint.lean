import Lnx.Lib.Wire
import Mathlib.Algebra.Ring.Nat
import Mathlib.Tactic.Common

/-!
# Numbers in groups of seven bits

A number is written seven bits at a time, the lowest first, with the top bit of a
byte set if more bytes follow. Byte strings and lists are written after their length in
this form.
-/

namespace Lnx.Wire

variable {α β : Type}

def putVarint (n : ℕ) : List UInt8 :=
  if n < 128 then [UInt8.ofNat n] else UInt8.ofNat (n % 128 + 128) :: putVarint (n / 128)
decreasing_by omega

def getVarint : List UInt8 → Option (ℕ × List UInt8)
  | [] => none
  | b :: bs =>
    if b.toNat < 128 then some (b.toNat, bs)
    else (getVarint bs).map fun r => (b.toNat - 128 + 128 * r.1, r.2)

theorem getVarint_putVarint (n : ℕ) (rest : List UInt8) :
    getVarint (putVarint n ++ rest) = some (n, rest) := by
  induction n using Nat.strongRecOn with
  | ind n ih =>
    rw [putVarint]
    split_ifs with hn
    · have hb : (UInt8.ofNat n).toNat = n := by
        rw [UInt8.toNat_ofNat']
        omega
      rw [List.singleton_append, getVarint, hb, if_pos hn]
    · have hb : (UInt8.ofNat (n % 128 + 128)).toNat = n % 128 + 128 := by
        rw [UInt8.toNat_ofNat']
        omega
      rw [List.cons_append, getVarint, hb, if_neg (by omega), ih (n / 128) (by omega)]
      simp only [Option.map_some, Option.some.injEq, Prod.mk.injEq, and_true]
      omega

theorem length_putVarint_le {k : ℕ} (hk : 0 < k) {n : ℕ} (hn : n < 128 ^ k) :
    (putVarint n).length ≤ k := by
  induction k generalizing n with
  | zero => omega
  | succ k ih =>
    rw [putVarint]
    split_ifs with h
    · simp
    · have hk' : 0 < k := by
        rcases k with - | k
        · simp only [Nat.zero_add, Nat.pow_one] at hn
          omega
        · omega
      have hlt : n / 128 < 128 ^ k := by
        exact Nat.div_lt_of_lt_mul (by rwa [Nat.mul_comm])
      have := ih hk' hlt
      rw [List.length_cons]
      omega

def varint : Wire ℕ where
  put := putVarint
  get := getVarint
  get_put := getVarint_putVarint

/-- A list, after its length. -/
def seq (u : Wire α) : Wire (List α) where
  put l := varint.put l.length ++ l.flatMap u.put
  get bs := (varint.get bs).bind fun n => u.getMany n.1 n.2
  get_put l rest := by
    rw [List.append_assoc, varint.get_put]
    exact u.getMany_put l rest

/-- One byte. -/
def byte : Wire UInt8 where
  put b := [b]
  get
    | [] => none
    | b :: bs => some (b, bs)
  get_put _ _ := rfl

def bytes : Wire (List UInt8) := byte.seq

theorem length_put_bytes (l : List UInt8) : (bytes.put l).length = (putVarint l.length).length + l.length := by
  have hflat : (l.flatMap byte.put).length = l.length := by
    simp [byte]
  show (putVarint l.length ++ l.flatMap byte.put).length = _
  rw [List.length_append, hflat]

/-- A string, as its UTF-8 bytes. -/
def utf8 : Wire String :=
  bytes.embed (fun s => s.toUTF8.data.toList) (fun l => String.fromUTF8? ⟨l.toArray⟩) fun s => by
    simp only [Array.toArray_toList, String.fromUTF8?]
    exact dif_pos s.isValidUTF8

def u16 : Wire UInt16 :=
  varint.embed UInt16.toNat (fun n => if n < 2 ^ 16 then some (UInt16.ofNat n) else none) fun n => by
    rw [if_pos n.toNat_lt, UInt16.ofNat_toNat]

def u32 : Wire UInt32 :=
  varint.embed UInt32.toNat (fun n => if n < 2 ^ 32 then some (UInt32.ofNat n) else none) fun n => by
    rw [if_pos n.toNat_lt, UInt32.ofNat_toNat]

def u64 : Wire UInt64 :=
  varint.embed UInt64.toNat (fun n => if n < 2 ^ 64 then some (UInt64.ofNat n) else none) fun n => by
    rw [if_pos n.toNat_lt, UInt64.ofNat_toNat]

def bool : Wire Bool :=
  byte.embed (fun b => if b then 1 else 0) (fun b => if b = 0 then some false else if b = 1 then some true else none)
    fun b => by cases b <;> rfl

/-- Integers as numbers, those below zero at the odd places. -/
def zigzag (z : ℤ) : ℕ := if 0 ≤ z then 2 * z.toNat else 2 * (-z).toNat - 1

def unzigzag (n : ℕ) : ℤ := if n % 2 = 0 then (n / 2 : ℕ) else -((n / 2 : ℕ) + 1)

theorem unzigzag_zigzag (z : ℤ) : unzigzag (zigzag z) = z := by
  unfold unzigzag zigzag
  split_ifs <;> omega

def i32 : Wire Int32 :=
  varint.embed (fun n => zigzag n.toInt) (fun n => some (Int32.ofInt (unzigzag n))) fun n => by
    rw [unzigzag_zigzag, Int32.ofInt_toInt]

end Lnx.Wire
