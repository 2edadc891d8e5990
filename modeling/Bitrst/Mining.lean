import Bitrst.Block
import Bitrst.Difficulty

/-!
# The search for a nonce

`pow.rs` of the miner.  A search tries the nonces from the header's on, one
after the other and around the end of their range, until the hash meets the
target.
-/

namespace Bitrst

def maxNonceAttempts : ℕ := 10_000_000

inductive MineError
  | attemptsExceeded
  deriving DecidableEq

section

variable [Crypto]

def BlockHeader.hash (header : BlockHeader) : Hash256 := sha256d header.serialize

/-- The header with a later nonce. -/
def BlockHeader.advance (header : BlockHeader) (n : ℕ) : BlockHeader :=
  { header with nonce := header.nonce + UInt32.ofNat n }

/-- A loop of so many attempts, which leaves the header with the nonce that it came to. -/
def searchNonce (target : Target) : ℕ → BlockHeader → Option Hash256 × BlockHeader
  | 0, header => (none, header)
  | n + 1, header =>
      if target.meets header.hash then (some header.hash, header)
      else searchNonce target n { header with nonce := header.nonce + 1 }

def mine (header : BlockHeader) (target : Target) : Except MineError Hash256 × BlockHeader :=
  match searchNonce target maxNonceAttempts header with
  | (some hash, header) => (.ok hash, header)
  | (none, header) => (.error .attemptsExceeded, header)

def mineWithHeaderBits (header : BlockHeader) :
    Except MineError (Option Hash256) × BlockHeader :=
  match Target.fromBits header.bits with
  | none => (.ok none, header)
  | some target =>
      match mine header target with
      | (.error e, header) => (.error e, header)
      | (.ok hash, header) => (.ok (some hash), header)

omit [Crypto] in
@[simp] theorem BlockHeader.advance_zero (header : BlockHeader) : header.advance 0 = header := by
  have hnonce : header.nonce + UInt32.ofNat 0 = header.nonce := UInt32.add_zero _
  rw [advance, hnonce]

omit [Crypto] in
theorem BlockHeader.advance_succ (header : BlockHeader) (n : ℕ) :
    { header with nonce := header.nonce + 1 }.advance n = header.advance (n + 1) := by
  have hnonce : header.nonce + 1 + UInt32.ofNat n = header.nonce + UInt32.ofNat (n + 1) := by
    rw [UInt32.ofNat_add, UInt32.add_assoc, UInt32.add_comm 1]
    rfl
  rw [advance, advance, hnonce]

omit [Crypto] in
/-- Within the range of nonces none comes back. -/
theorem BlockHeader.advance_injective (header : BlockHeader) {m n : ℕ} (hm : m < 2 ^ 32)
    (hn : n < 2 ^ 32) (h : header.advance m = header.advance n) : m = n := by
  have hnonce : header.nonce + UInt32.ofNat m = header.nonce + UInt32.ofNat n :=
    congrArg BlockHeader.nonce h
  have hnat := congrArg UInt32.toNat (UInt32.add_right_inj _ |>.mp hnonce)
  rwa [UInt32.toNat_ofNat_of_lt' hm, UInt32.toNat_ofNat_of_lt' hn] at hnat

/-- What the search comes to: the first nonce whose hash meets the target, or behind all that it
has tried. -/
theorem searchNonce_spec (target : Target) (attempts : ℕ) (header : BlockHeader) :
    (∃ n < attempts, searchNonce target attempts header =
        (some (header.advance n).hash, header.advance n) ∧
      target.meets (header.advance n).hash = true ∧
      ∀ m < n, target.meets (header.advance m).hash = false) ∨
    searchNonce target attempts header = (none, header.advance attempts) ∧
      ∀ m < attempts, target.meets (header.advance m).hash = false := by
  induction attempts generalizing header with
  | zero => exact .inr ⟨by rw [searchNonce, BlockHeader.advance_zero], fun _ h ↦ nomatch h⟩
  | succ attempts ih =>
      by_cases hmeets : target.meets header.hash = true
      · refine .inl ⟨0, Nat.succ_pos _, ?_, ?_, fun _ h ↦ nomatch h⟩
        · rw [searchNonce, if_pos hmeets, BlockHeader.advance_zero]
        · rwa [BlockHeader.advance_zero]
      · have hfirst : ∀ m, (∀ k < m, target.meets
            ({ header with nonce := header.nonce + 1 }.advance k).hash = false) →
            ∀ k < m + 1, target.meets (header.advance k).hash = false := by
          intro m hm k hk
          cases k with
          | zero =>
              rw [BlockHeader.advance_zero]
              exact Bool.eq_false_iff.mpr hmeets
          | succ k =>
              rw [← BlockHeader.advance_succ]
              exact hm k (Nat.lt_of_succ_lt_succ hk)
        rw [searchNonce, if_neg hmeets]
        rcases ih { header with nonce := header.nonce + 1 } with
          ⟨n, hn, hsearch, hn', hbefore⟩ | ⟨hsearch, hbefore⟩
        · rw [BlockHeader.advance_succ] at hsearch hn'
          exact .inl ⟨n + 1, Nat.succ_lt_succ hn, hsearch, hn', hfirst n hbefore⟩
        · rw [BlockHeader.advance_succ] at hsearch
          exact .inr ⟨hsearch, hfirst attempts hbefore⟩

/-- `mine` returns the first nonce from the header's on whose hash meets the target, and gives up
just when there is none among so many, all of them different. -/
theorem mine_finds_first (header : BlockHeader) (target : Target) :
    ((∃ n < maxNonceAttempts, mine header target =
        (.ok (header.advance n).hash, header.advance n) ∧
      target.meets (header.advance n).hash = true ∧
      ∀ m < n, target.meets (header.advance m).hash = false) ∨
    mine header target = (.error .attemptsExceeded, header.advance maxNonceAttempts) ∧
      ∀ m < maxNonceAttempts, target.meets (header.advance m).hash = false) ∧
    ∀ m ≤ maxNonceAttempts, ∀ n ≤ maxNonceAttempts,
      header.advance m = header.advance n → m = n := by
  have hrange : maxNonceAttempts < 2 ^ 32 := by decide
  refine ⟨?_, fun m hm n hn ↦
    header.advance_injective (hm.trans_lt hrange) (hn.trans_lt hrange)⟩
  rcases searchNonce_spec target maxNonceAttempts header with
    ⟨n, hn, hsearch, hmeets, hbefore⟩ | ⟨hsearch, hbefore⟩
  · exact .inl ⟨n, hn, by rw [mine, hsearch], hmeets, hbefore⟩
  · exact .inr ⟨by rw [mine, hsearch], hbefore⟩

end

end Bitrst
