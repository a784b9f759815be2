import Utilc.CLib.Checked

/-!
# Vectors

The part of `kvec.h` that the memory pool uses. Its macros take the element type; here they take the
size of it.
-/

namespace Utilc
open CLib

/-- `kvec_t`. A cell that was never written has no value. -/
structure Kvec (α : Type) where
  n : ℕ
  m : ℕ
  a : List (Option α)
  deriving DecidableEq, Repr

variable {α : Type}

def kvInit : Kvec α := ⟨0, 0, []⟩

def kvA (v : Kvec α) (i : ℕ) : Checked α := do
  match ← readAt v.a i with
  | some x => return x
  | none => .error .uninitialized

def kvAssign (v : Kvec α) (i : ℕ) (x : α) : Checked (Kvec α) := do
  let a ← writeAt v.a i (some x)
  return { v with a := a }

def kvPop (v : Kvec α) : Checked (Kvec α × α) := do
  let v := { v with n := sizeSub v.n 1 }
  let x ← kvA v v.n
  return (v, x)

/-- `kv_resize`; the byte count handed to `realloc` wraps. -/
def kvResize (size : ℕ) (v : Kvec α) (s : ℕ) : Kvec α :=
  { v with m := s, a := realloc v.a (sizeMul size s / size) }

def kvStaticPush (v : Kvec α) (x : α) : Checked (Kvec α) := do
  let a ← writeAt v.a v.n (some x)
  return { v with n := sizeAdd v.n 1, a := a }

def kvPush (size : ℕ) (v : Kvec α) (x : α) : Checked (Kvec α) :=
  let v := if v.n = v.m then kvResize size v (if v.m ≠ 0 then sizeMul v.m 2 else 2) else v
  kvStaticPush v x

def kvFull (v : Kvec α) : Bool := v.m ≤ v.n

def kvEmpty (v : Kvec α) : Bool := v.n = 0

lemma kvA_of_some {v : Kvec α} {i : ℕ} {x : α} (h : v.a[i]? = some (some x)) :
    kvA v i = .ok x := by
  simp only [kvA, readAt_eq_ok.mpr h, ok_bind, pure_eq_ok]

lemma kvAssign_of_lt {v : Kvec α} {i : ℕ} (h : i < v.a.length) (x : α) :
    kvAssign v i x = .ok { v with a := v.a.set i (some x) } := by
  simp only [kvAssign, writeAt_of_lt h, ok_bind, pure_eq_ok]

lemma length_kvResize {size s : ℕ} (hsize : 0 < size) (h : size * s < 2 ^ sizeBits) (v : Kvec α) :
    (kvResize size v s).a.length = s := by
  rw [kvResize, length_realloc, sizeMul_of_lt h, Nat.mul_div_cancel_left s hsize]

end Utilc
