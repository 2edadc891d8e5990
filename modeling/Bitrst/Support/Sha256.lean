import Mathlib.Data.UInt
import Mathlib.Data.Vector.Basic

/-!
# SHA-256

The digest of a byte string, computed with the natural-number operations that
the kernel evaluates; words are natural numbers below `2 ^ 32`.  A table of
digests computed once stands in for the function where it is evaluated often.
-/

namespace Support

namespace Sha256

def roundConstants : List ℕ := [
  0x428a2f98, 0x71374491, 0xb5c0fbcf, 0xe9b5dba5, 0x3956c25b, 0x59f111f1, 0x923f82a4, 0xab1c5ed5,
  0xd807aa98, 0x12835b01, 0x243185be, 0x550c7dc3, 0x72be5d74, 0x80deb1fe, 0x9bdc06a7, 0xc19bf174,
  0xe49b69c1, 0xefbe4786, 0x0fc19dc6, 0x240ca1cc, 0x2de92c6f, 0x4a7484aa, 0x5cb0a9dc, 0x76f988da,
  0x983e5152, 0xa831c66d, 0xb00327c8, 0xbf597fc7, 0xc6e00bf3, 0xd5a79147, 0x06ca6351, 0x14292967,
  0x27b70a85, 0x2e1b2138, 0x4d2c6dfc, 0x53380d13, 0x650a7354, 0x766a0abb, 0x81c2c92e, 0x92722c85,
  0xa2bfe8a1, 0xa81a664b, 0xc24b8b70, 0xc76c51a3, 0xd192e819, 0xd6990624, 0xf40e3585, 0x106aa070,
  0x19a4c116, 0x1e376c08, 0x2748774c, 0x34b0bcb5, 0x391c0cb3, 0x4ed8aa4a, 0x5b9cca4f, 0x682e6ff3,
  0x748f82ee, 0x78a5636f, 0x84c87814, 0x8cc70208, 0x90befffa, 0xa4506ceb, 0xbef9a3f7, 0xc67178f2]

structure State where
  a : ℕ
  b : ℕ
  c : ℕ
  d : ℕ
  e : ℕ
  f : ℕ
  g : ℕ
  h : ℕ
  deriving DecidableEq

def initialState : State :=
  ⟨0x6a09e667, 0xbb67ae85, 0x3c6ef372, 0xa54ff53a, 0x510e527f, 0x9b05688c, 0x1f83d9ab, 0x5be0cd19⟩

/-! ## Words -/

def word (x : ℕ) : ℕ := Nat.mod x 0x100000000

/-- The exclusive or of the rotations of a word by three amounts, or of two
rotations and a shift: the word is laid beside itself once, and every rotation
is the low word of a shift. -/
def rotations (i j k x : ℕ) : ℕ :=
  (fun beside ↦ word (Nat.xor (Nat.xor (Nat.shiftRight beside i) (Nat.shiftRight beside j))
    (Nat.shiftRight beside k))) (Nat.mul x 0x100000001)

def rotationsShift (i j k x : ℕ) : ℕ :=
  (fun beside ↦ Nat.xor (word (Nat.xor (Nat.shiftRight beside i) (Nat.shiftRight beside j)))
    (Nat.shiftRight x k)) (Nat.mul x 0x100000001)

def choose (x y z : ℕ) : ℕ := Nat.xor z (Nat.land x (Nat.xor y z))

def majority (x y z : ℕ) : ℕ := Nat.xor (Nat.land x y) (Nat.land z (Nat.xor x y))

/-! ## Compression -/

/-- The sixteen words of the schedule at hand make one number, the next word
at the top.  That word is dropped and a new one comes in at the bottom. -/
def nextSchedule (schedule : ℕ) : ℕ :=
  Nat.add (Nat.shiftLeft (Nat.mod schedule (Nat.pow 2 480)) 32) (word
    (Nat.add
      (Nat.add (rotationsShift 17 19 10 (word (Nat.shiftRight schedule 32)))
        (Nat.shiftRight schedule 192))
      (Nat.add (rotationsShift 7 18 3 (word (Nat.shiftRight schedule 448)))
        (Nat.shiftRight schedule 480))))

def rounds : List ℕ → ℕ → ℕ → ℕ → ℕ → ℕ → ℕ → ℕ → ℕ → ℕ → State
  | k :: ks, schedule, a, b, c, d, e, f, g, h =>
      (fun sum ↦ rounds ks (nextSchedule schedule)
        (word (Nat.add (Nat.add (rotations 2 13 22 a) (majority a b c)) sum)) a b c
        (word (Nat.add d sum)) e f g)
        (Nat.add (Nat.add (rotations 6 11 25 e) (choose e f g))
          (Nat.add (Nat.add h k) (Nat.shiftRight schedule 480)))
  | [], _, a, b, c, d, e, f, g, h => ⟨a, b, c, d, e, f, g, h⟩

def compress (s : State) (schedule : ℕ) : State :=
  let r := rounds roundConstants schedule s.a s.b s.c s.d s.e s.f s.g s.h
  ⟨word (Nat.add s.a r.a), word (Nat.add s.b r.b), word (Nat.add s.c r.c), word (Nat.add s.d r.d),
    word (Nat.add s.e r.e), word (Nat.add s.f r.f), word (Nat.add s.g r.g), word (Nat.add s.h r.h)⟩

/-! ## Digests -/

/-- The chunks of a padded message are compressed one after the other. -/
def compressAll : ℕ → ℕ → State → State
  | 0, _, s => s
  | n + 1, message, s =>
      compressAll n message
        (compress s (Nat.mod (Nat.shiftRight message (Nat.mul 512 n)) (Nat.pow 2 512)))

/-- The digest of `length` bytes that write the number `message`: they are padded
with a one bit, zeros, and the length in bits as eight bytes. -/
def digestNumber (length message : ℕ) : ℕ :=
  let zeros := (119 - length % 64) % 64
  let padded := (message * 256 + 0x80) * 256 ^ (zeros + 8) + 8 * length
  let s := compressAll ((length + zeros + 9) / 64) padded initialState
  ((((((s.a * 2 ^ 32 + s.b) * 2 ^ 32 + s.c) * 2 ^ 32 + s.d) * 2 ^ 32 + s.e) * 2 ^ 32 + s.f) *
    2 ^ 32 + s.g) * 2 ^ 32 + s.h

end Sha256

/-! ## Numbers and bytes -/

/-- The bytes of a number, the most significant one first. -/
def beBytes (width n : ℕ) : List UInt8 :=
  (List.range width).map fun i ↦ .ofNat (Nat.shiftRight n (8 * (width - 1 - i)))

def beVector (width n : ℕ) : List.Vector UInt8 width := ⟨beBytes width n, by simp [beBytes]⟩

/-- The number that bytes write, the most significant one first. -/
def beNat (bytes : List UInt8) : ℕ :=
  bytes.foldl (fun n byte ↦ Nat.add (Nat.mul n 256) byte.toNat) 0

def Sha256.digest (message : List UInt8) : List.Vector UInt8 32 :=
  beVector 32 (Sha256.digestNumber message.length (beNat message))

theorem beBytes_succ (width n : ℕ) :
    beBytes (width + 1) n = beBytes width (Nat.shiftRight n 8) ++ [.ofNat n] := by
  unfold beBytes
  rw [List.range_succ, List.map_append]
  congr 1
  · refine List.map_congr_left fun i hi ↦ ?_
    have hlt := List.mem_range.mp hi
    change UInt8.ofNat (n >>> _) = .ofNat ((n >>> 8) >>> _)
    rw [← Nat.shiftRight_add]
    congr 2
    omega
  · simp

theorem beBytes_beNat (bytes : List UInt8) : beBytes bytes.length (beNat bytes) = bytes := by
  induction bytes using List.reverseRecOn with
  | nil => rfl
  | append_singleton bytes byte ih =>
      have hnumber : beNat (bytes ++ [byte]) = beNat bytes * 256 + byte.toNat := by
        simp [beNat]
      have hshift : Nat.shiftRight (beNat bytes * 256 + byte.toNat) 8 = beNat bytes := by
        change (_ + _) >>> 8 = _
        have hlt := byte.toNat_lt
        rw [Nat.shiftRight_eq_div_pow]
        omega
      have hlow : UInt8.ofNat (beNat bytes * 256 + byte.toNat) = byte := by
        have hlt := byte.toNat_lt
        apply UInt8.toNat_inj.mp
        rw [UInt8.toNat_ofNat']
        omega
      rw [List.length_append, List.length_singleton, hnumber, beBytes_succ, hshift, ih, hlow]

theorem beNat_append (xs ys : List UInt8) :
    beNat (xs ++ ys) = beNat xs * 256 ^ ys.length + beNat ys := by
  induction ys using List.reverseRecOn with
  | nil => simp [beNat]
  | append_singleton ys y ih =>
      have hsnoc : ∀ bytes, beNat (bytes ++ [y]) = beNat bytes * 256 + y.toNat := by simp [beNat]
      rw [← List.append_assoc, hsnoc, ih, hsnoc, List.length_append, List.length_singleton,
        pow_succ, Nat.add_mul, Nat.mul_assoc, Nat.add_assoc]

theorem beNat_beBytes (width n : ℕ) : beNat (beBytes width n) = n % 256 ^ width := by
  induction width generalizing n with
  | zero => simp [beBytes, beNat, Nat.mod_one]
  | succ width ih =>
      have hshift : Nat.shiftRight n 8 = n / 256 := Nat.shiftRight_eq_div_pow n 8
      have hlast : beNat [.ofNat n] = n % 256 := by
        change 0 * 256 + (UInt8.ofNat n).toNat = n % 256
        rw [UInt8.toNat_ofNat', Nat.zero_mul, Nat.zero_add]
      rw [beBytes_succ, beNat_append, hshift, ih, hlast, List.length_singleton, pow_one,
        Nat.pow_succ', Nat.mod_mul]
      omega

theorem beVector_beNat {width : ℕ} (v : List.Vector UInt8 width) :
    beVector width (beNat v.toList) = v := by
  apply List.Vector.toList_injective
  have hbytes := beBytes_beNat v.toList
  rwa [v.toList_length] at hbytes

/-- The function of a number whose value is computed first. -/
def forced {α : Type*} (n : ℕ) (f : ℕ → α) : α :=
  match n with
  | 0 => f 0
  | k + 1 => f (k + 1)

@[simp] theorem forced_eq {α : Type*} (n : ℕ) (f : ℕ → α) : forced n f = f n := by
  cases n <;> rfl

/-! ## Messages that end in zeros -/

namespace Sha256

/-- The rounds on a chunk of zeros, whose schedule is all zeros. -/
def zeroRounds : List ℕ → ℕ → ℕ → ℕ → ℕ → ℕ → ℕ → ℕ → ℕ → State
  | k :: ks, a, b, c, d, e, f, g, h =>
      (fun sum ↦ zeroRounds ks
        (word (Nat.add (Nat.add (rotations 2 13 22 a) (majority a b c)) sum)) a b c
        (word (Nat.add d sum)) e f g)
        (Nat.add (Nat.add (rotations 6 11 25 e) (choose e f g)) (Nat.add h k))
  | [], a, b, c, d, e, f, g, h => ⟨a, b, c, d, e, f, g, h⟩

/-- The compression of a chunk of zeros. -/
def compressZero (s : State) : State :=
  let r := zeroRounds roundConstants s.a s.b s.c s.d s.e s.f s.g s.h
  ⟨word (Nat.add s.a r.a), word (Nat.add s.b r.b), word (Nat.add s.c r.c), word (Nat.add s.d r.d),
    word (Nat.add s.e r.e), word (Nat.add s.f r.f), word (Nat.add s.g r.g), word (Nat.add s.h r.h)⟩

/-- The compression of so many chunks of zeros, each word of a state computed before the next. -/
def compressZeros : ℕ → State → State
  | 0, s => s
  | n + 1, s =>
      forced (compressZero s).a fun a ↦ forced (compressZero s).b fun b ↦
      forced (compressZero s).c fun c ↦ forced (compressZero s).d fun d ↦
      forced (compressZero s).e fun e ↦ forced (compressZero s).f fun f ↦
      forced (compressZero s).g fun g ↦ forced (compressZero s).h fun h ↦
        compressZeros n ⟨a, b, c, d, e, f, g, h⟩

/-- The words of a state as one number. -/
def State.number (s : State) : ℕ :=
  ((((((s.a * 2 ^ 32 + s.b) * 2 ^ 32 + s.c) * 2 ^ 32 + s.d) * 2 ^ 32 + s.e) * 2 ^ 32 + s.f) *
    2 ^ 32 + s.g) * 2 ^ 32 + s.h

theorem rounds_zero (ks : List ℕ) (a b c d e f g h : ℕ) :
    rounds ks 0 a b c d e f g h = zeroRounds ks a b c d e f g h := by
  have hnext : nextSchedule 0 = 0 := by decide +kernel
  have hword : Nat.shiftRight 0 480 = 0 := Nat.zero_shiftRight 480
  induction ks generalizing a b c d e f g h with
  | nil => rfl
  | cons k ks ih =>
      rw [rounds, zeroRounds, hnext, hword]
      exact ih _ _ _ _ _ _ _ _

theorem compress_zero (s : State) : compress s 0 = compressZero s := by
  unfold compress compressZero
  simp only [rounds_zero]

theorem compressZeros_succ (n : ℕ) (s : State) :
    compressZeros (n + 1) s = compressZeros n (compressZero s) := by
  rw [compressZeros]
  simp only [forced_eq]

theorem compressZeros_add (m n : ℕ) (s : State) :
    compressZeros (m + n) s = compressZeros n (compressZeros m s) := by
  induction m generalizing s with
  | zero =>
      rw [Nat.zero_add]
      conv_rhs => rw [show compressZeros 0 s = s by unfold compressZeros; rfl]
  | succ m ih => rw [Nat.succ_add, compressZeros_succ, ih, compressZeros_succ]

section

-- The width of a chunk has a name here, so that no power of it is computed.
variable {w : ℕ} (hw : w = 512)

include hw

theorem compressAll_succ (n message : ℕ) (s : State) : compressAll (n + 1) message s =
    compressAll n message (compress s (message >>> (w * n) % 2 ^ w)) := by
  have hchunk : ∀ w, Nat.mod (Nat.shiftRight message (Nat.mul w n)) (Nat.pow 2 w) =
      message >>> (w * n) % 2 ^ w := fun _ ↦ rfl
  conv_lhs => unfold compressAll
  rw [← hw]
  exact congrArg (fun chunk ↦ compressAll n message (compress s chunk)) (hchunk w)

omit hw in
/-- What the lowest `n` chunks leave to the chunk above them. -/
theorem chunk_eq {high last n : ℕ} (hlast : last < 2 ^ (w * n)) :
    (high * 2 ^ (w * n) + last) >>> (w * n) % 2 ^ w = high % 2 ^ w := by
  rw [Nat.shiftRight_eq_div_pow, Nat.add_comm, Nat.add_mul_div_right _ _ (Nat.two_pow_pos _),
    Nat.div_eq_of_lt hlast, Nat.zero_add]

/-- Chunks of zeros and a last chunk, whatever stands above them. -/
theorem compressAll_zeros {last : ℕ} (hlast : last < 2 ^ w) (n high : ℕ) (s : State) :
    compressAll (n + 1) (high * 2 ^ (w * (n + 1)) + last) s =
      compress (compressZeros n s) last := by
  induction n generalizing high s with
  | zero =>
      rw [compressAll_succ hw, Nat.mul_zero, Nat.shiftRight_zero, Nat.zero_add, Nat.mul_one,
        Nat.add_comm, Nat.add_mul_mod_self_right, Nat.mod_eq_of_lt hlast]
      unfold compressAll compressZeros
      rfl
  | succ n ih =>
      have hbelow : last < 2 ^ (w * (n + 1)) :=
        hlast.trans_le (Nat.pow_le_pow_right (by decide) (Nat.le_mul_of_pos_right w n.succ_pos))
      have hhigh : high * 2 ^ (w * (n + 1 + 1)) = high * 2 ^ w * 2 ^ (w * (n + 1)) := by
        rw [Nat.mul_succ, Nat.add_comm, Nat.pow_add, Nat.mul_assoc]
      rw [compressAll_succ hw, hhigh, chunk_eq hbelow, Nat.mul_mod_left, ih, compress_zero,
        compressZeros_succ]

/-- A first chunk, chunks of zeros and a last chunk. -/
theorem compressAll_between {first last : ℕ} (hfirst : first < 2 ^ w) (hlast : last < 2 ^ w)
    (n : ℕ) (s : State) :
    compressAll (n + 2) (first * 2 ^ (w * (n + 1)) + last) s =
      compress (compressZeros n (compress s first)) last := by
  have hbelow : last < 2 ^ (w * (n + 1)) :=
    hlast.trans_le (Nat.pow_le_pow_right (by decide) (Nat.le_mul_of_pos_right w n.succ_pos))
  rw [compressAll_succ hw, chunk_eq hbelow, Nat.mod_eq_of_lt hfirst, compressAll_zeros hw hlast]

/-- The digest of a message whose first chunk writes `head` and that ends in zeros, `r` of them
in the last chunk. -/
theorem digestNumber_zeros {head n r : ℕ} (hhead : head < 2 ^ w) (hr : r ≤ 55)
    (hlength : 8 * (64 * (n + 1) + r) < 256 ^ 8) :
    digestNumber (64 * (n + 1) + r) (head * 256 ^ (64 * n + r)) =
      (compress (compressZeros n (compress initialState head))
        (0x80 * 256 ^ (63 - r) + 8 * (64 * (n + 1) + r))).number := by
  have hzeros : (119 - (64 * (n + 1) + r) % 64) % 64 = 55 - r := by omega
  have hchunks : (64 * (n + 1) + r + (55 - r) + 9) / 64 = n + 2 := by omega
  have hlast : 0x80 * 256 ^ (63 - r) + 8 * (64 * (n + 1) + r) < 2 ^ w := by
    have hsmall : 256 ^ 8 ≤ 256 ^ (63 - r) := Nat.pow_le_pow_right (by decide) (by omega)
    calc
      0x80 * 256 ^ (63 - r) + 8 * (64 * (n + 1) + r) < 256 ^ (63 - r) * 256 := by omega
      _ = 256 ^ (63 - r + 1) := (Nat.pow_succ ..).symm
      _ ≤ 256 ^ 64 := Nat.pow_le_pow_right (by decide) (by omega)
      _ = 2 ^ w := by rw [hw, Nat.pow_mul 2 8 64]
  have hpadded : (head * 256 ^ (64 * n + r) * 256 + 0x80) * 256 ^ (55 - r + 8) +
      8 * (64 * (n + 1) + r) = head * 2 ^ (w * (n + 1)) +
        (0x80 * 256 ^ (63 - r) + 8 * (64 * (n + 1) + r)) := by
    have hexp : w * (n + 1) = 8 * (64 * n + r + 1 + (55 - r + 8)) := by
      rw [hw]
      omega
    have hbase : 2 ^ (w * (n + 1)) = 256 ^ (64 * n + r) * 256 * 256 ^ (55 - r + 8) := by
      rw [hexp, Nat.pow_mul, ← Nat.pow_succ, ← Nat.pow_add]
    have hr' : 55 - r + 8 = 63 - r := by omega
    rw [hbase, Nat.add_mul, ← hr']
    simp only [Nat.mul_assoc, Nat.add_assoc]
  unfold digestNumber
  simp only [hzeros, hchunks, hpadded, compressAll_between hw hhead hlast]
  rfl

end

end Sha256

theorem beNat_append_zeros (bytes : List UInt8) (n : ℕ) :
    beNat (bytes ++ List.replicate n 0) = beNat bytes * 256 ^ n := by
  have hzeros : beNat (List.replicate n 0) = 0 := by
    induction n with
    | zero => rfl
    | succ n ih =>
        rw [List.replicate_succ', beNat_append, ih, Nat.zero_mul]
        rfl
  rw [beNat_append, hzeros, List.length_replicate, Nat.add_zero]

/-- The digest of a first chunk followed by zeros. -/
theorem Sha256.digest_append_zeros {first : List UInt8} {n r : ℕ} (hfirst : first.length = 64)
    (hr : r ≤ 55) (hlength : 8 * (64 * (n + 1) + r) < 256 ^ 8) :
    digest (first ++ List.replicate (64 * n + r) 0) = beVector 32
      (compress (compressZeros n (compress initialState (beNat first)))
        (0x80 * 256 ^ (63 - r) + 8 * (64 * (n + 1) + r))).number := by
  obtain ⟨w, hw⟩ : ∃ w, w = 512 := ⟨_, rfl⟩
  have hbytes : (first ++ List.replicate (64 * n + r) 0).length = 64 * (n + 1) + r := by
    rw [List.length_append, List.length_replicate, hfirst]
    omega
  have hhead : beNat first < 2 ^ w := by
    have hlt := beNat_beBytes first.length (beNat first)
    rw [beBytes_beNat] at hlt
    rw [hlt, hfirst, hw, Nat.pow_mul 2 8 64]
    exact Nat.mod_lt _ (Nat.pow_pos (by decide))
  rw [digest, hbytes, beNat_append_zeros, digestNumber_zeros hw hhead hr hlength]

example : Sha256.digest [0x61, 0x62, 0x63] = beVector 32
    0xba7816bf8f01cfea414140de5dae2223b00361a396177a9cb410ff61f20015ad := by decide +kernel

/-! ## Tables of known values -/

/-- A table of values of a function, each of them checked. -/
structure Known {α β : Type*} (f : α → β) where
  table : List (α × β)
  sound : ∀ entry ∈ table, f entry.1 = entry.2

/-- The function, looked up in the table where it is there. -/
def Known.apply {α β : Type*} [DecidableEq α] {f : α → β} (known : Known f) (x : α) : β :=
  match known.table.find? fun entry ↦ entry.1 = x with
  | some entry => entry.2
  | none => f x

theorem Known.apply_eq {α β : Type*} [DecidableEq α] {f : α → β} (known : Known f) (x : α) :
    known.apply x = f x := by
  unfold apply
  cases hfind : known.table.find? fun entry ↦ entry.1 = x with
  | none => rfl
  | some entry =>
      have hkey : entry.1 = x := by simpa using List.find?_some hfind
      rw [← hkey, known.sound entry (List.mem_of_find?_eq_some hfind)]

end Support
