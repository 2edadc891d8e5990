import Mathlib.Algebra.BigOperators.Group.Finset.Basic
import Mathlib.Algebra.Order.BigOperators.Group.Finset
import Mathlib.Data.Fintype.BigOperators
import Mathlib.Logic.Relation

/-!
# A rumour in a network

A node that has heard a rumour offers it to all its neighbours but the one it
has it from.  A neighbour that does not know it asks, and is sent it.  Offers go
on in any order.  Every step uses up some of a rank, and where no step is left
all nodes know the rumour that can be reached from one that does.
-/

namespace Support

/-- What a node knows of the rumour. -/
inductive Hearing (V : Type*)
  | unaware
  | spreading (origin : V)
  | aware

/-- How far the offer of one node to another has got. -/
inductive Offer
  | idle
  | queued
  | told
  | asked
  | sent
  | settled
  deriving DecidableEq

variable {V : Type*}

theorem Hearing.aware_ne : (.aware : Hearing V) ≠ .unaware := fun h ↦ by cases h

theorem Hearing.spreading_ne {origin : V} : (.spreading origin : Hearing V) ≠ .unaware :=
  fun h ↦ by cases h

def Hearing.rank : Hearing V → ℕ
  | .unaware => 1
  | .spreading _ => 1
  | .aware => 0

/-- The steps that an offer can still take. -/
def Offer.rank : Offer → ℕ
  | .idle => 4
  | .queued => 4
  | .told => 3
  | .asked => 2
  | .sent => 1
  | .settled => 0

structure Flood (V : Type*) where
  hearing : V → Hearing V
  offer : V → V → Offer

namespace Flood

variable [DecidableEq V] {links : Finset (V × V)} {f g : Flood V} {u v w origin : V}

def setOffer (f : Flood V) (u v : V) (offer : Offer) : Flood V :=
  { f with offer := Function.update f.offer u (Function.update (f.offer u) v offer) }

def setHearing (f : Flood V) (v : V) (hearing : Hearing V) : Flood V :=
  { f with hearing := Function.update f.hearing v hearing }

/-- A node queues its offers. -/
def announce (links : Finset (V × V)) (f : Flood V) (v origin : V) : Flood V where
  hearing := Function.update f.hearing v .aware
  offer := Function.update f.offer v fun w ↦
    if (v, w) ∈ links ∧ w ≠ origin then .queued else f.offer v w

@[simp] theorem setOffer_hearing (f : Flood V) (u v : V) (offer : Offer) :
    (f.setOffer u v offer).hearing = f.hearing := rfl

@[simp] theorem setHearing_offer (f : Flood V) (v : V) (hearing : Hearing V) :
    (f.setHearing v hearing).offer = f.offer := rfl

@[simp] theorem setHearing_hearing_self (f : Flood V) (v : V) (hearing : Hearing V) :
    (f.setHearing v hearing).hearing v = hearing := Function.update_self ..

theorem setHearing_hearing_ne (f : Flood V) (hearing : Hearing V) (h : w ≠ v) :
    (f.setHearing v hearing).hearing w = f.hearing w := Function.update_of_ne h ..

@[simp] theorem setOffer_setHearing (f : Flood V) (u v : V) (offer : Offer) :
    (f.setOffer u v offer).setHearing v (f.hearing v) = f.setOffer u v offer := by
  simp only [setHearing, setOffer_hearing, Function.update_eq_self]
  rfl

theorem setOffer_offer (f : Flood V) (u v a b : V) (offer : Offer) :
    (f.setOffer u v offer).offer a b = if a = u ∧ b = v then offer else f.offer a b := by
  by_cases ha : a = u
  · subst ha
    by_cases hb : b = v
    · subst hb
      simp [setOffer]
    · simp [setOffer, hb]
  · simp [setOffer, ha]

@[simp] theorem setOffer_offer_self (f : Flood V) (u v : V) (offer : Offer) :
    (f.setOffer u v offer).offer u v = offer := by
  rw [setOffer_offer, if_pos ⟨rfl, rfl⟩]

@[simp] theorem announce_hearing_self (links : Finset (V × V)) (f : Flood V) (v origin : V) :
    (f.announce links v origin).hearing v = .aware := Function.update_self ..

theorem announce_hearing_ne (links : Finset (V × V)) (f : Flood V) (origin : V) (h : w ≠ v) :
    (f.announce links v origin).hearing w = f.hearing w := Function.update_of_ne h ..

theorem announce_offer (links : Finset (V × V)) (f : Flood V) (v origin a b : V) :
    (f.announce links v origin).offer a b =
      if a = v ∧ (a, b) ∈ links ∧ b ≠ origin then .queued else f.offer a b := by
  by_cases ha : a = v
  · subst ha
    simp [announce]
  · simp [announce, ha]

/-- One step of a node or of an offer. -/
inductive Step (links : Finset (V × V)) (f : Flood V) : Flood V → Prop
  | announce (v origin : V) (heard : f.hearing v = .spreading origin) :
      Step links f (f.announce links v origin)
  | tell (u v : V) (queued : f.offer u v = .queued) : Step links f (f.setOffer u v .told)
  | ask (u v : V) (told : f.offer u v = .told) (unaware : f.hearing v = .unaware) :
      Step links f (f.setOffer u v .asked)
  | ignore (u v : V) (told : f.offer u v = .told) (known : f.hearing v ≠ .unaware) :
      Step links f (f.setOffer u v .settled)
  | send (u v : V) (asked : f.offer u v = .asked) : Step links f (f.setOffer u v .sent)
  | learn (u v : V) (sent : f.offer u v = .sent) (unaware : f.hearing v = .unaware) :
      Step links f ((f.setOffer u v .settled).setHearing v (.spreading u))
  | drop (u v : V) (sent : f.offer u v = .sent) (known : f.hearing v ≠ .unaware) :
      Step links f (f.setOffer u v .settled)

/-- Only who knows the rumour offers it, to a neighbour, and a neighbour to whom it is not
offered knows it or will hear that it was announced. -/
structure Spread (links : Finset (V × V)) (f : Flood V) : Prop where
  offered : ∀ u v, f.offer u v ≠ .idle → (u, v) ∈ links ∧ f.hearing u = .aware
  settled : ∀ u v, f.offer u v = .settled → f.hearing v ≠ .unaware
  origin : ∀ v origin, f.hearing v = .spreading origin → f.hearing origin ≠ .unaware
  covered : ∀ u v, (u, v) ∈ links → f.hearing u = .aware → f.offer u v = .idle →
    f.hearing v ≠ .unaware

/-- No step makes a node forget, and what is new is only an offer. -/
theorem Step.keeps (h : Step links f g) (hknown : f.hearing v ≠ .unaware) :
    g.hearing v ≠ .unaware := by
  cases h with
  | announce u origin _ =>
      by_cases hv : v = u
      · rw [hv, announce_hearing_self]
        exact Hearing.aware_ne
      · rwa [announce_hearing_ne _ _ _ hv]
  | learn a b sent unaware =>
      by_cases hv : v = b
      · rw [hv, setHearing_hearing_self]
        exact Hearing.spreading_ne
      · rwa [setHearing_hearing_ne _ _ hv]
  | _ => exact hknown

/-- An offer goes on. -/
theorem Spread.setOffer (h : f.Spread links) {offer : Offer} (hfrom : f.offer u v ≠ .idle)
    (hto : offer ≠ .idle) (hsettled : offer = .settled → f.hearing v ≠ .unaware) :
    (f.setOffer u v offer).Spread links where
  offered a b hab := by
    rw [setOffer_offer] at hab
    split at hab
    · rename_i heq
      rw [heq.1, heq.2]
      exact h.offered u v hfrom
    · exact h.offered a b hab
  settled a b hab := by
    rw [setOffer_offer] at hab
    split at hab
    · rename_i heq
      rw [heq.2]
      exact hsettled hab
    · exact h.settled a b hab
  origin := h.origin
  covered a b hlink haware hab := by
    rw [setOffer_offer] at hab
    split at hab
    · exact (hto hab).elim
    · exact h.covered a b hlink haware hab

theorem Step.spread (h : Step links f g) (hspread : f.Spread links) : g.Spread links := by
  have hkeeps := fun v ↦ h.keeps (v := v)
  cases h with
  | tell a b queued => exact hspread.setOffer (by simp [queued]) (by simp) (by simp)
  | ask a b told _ => exact hspread.setOffer (by simp [told]) (by simp) (by simp)
  | ignore a b told known =>
      exact hspread.setOffer (by simp [told]) (by simp) fun _ ↦ known
  | send a b asked => exact hspread.setOffer (by simp [asked]) (by simp) (by simp)
  | drop a b sent known => exact hspread.setOffer (by simp [sent]) (by simp) fun _ ↦ known
  | announce a origin heard =>
      have hother : ∀ v, f.hearing v = .aware → (f.announce links a origin).hearing v = .aware := by
        intro v hv
        by_cases hva : v = a
        · rw [hva, announce_hearing_self]
        · rw [announce_hearing_ne _ _ _ hva, hv]
      refine ⟨fun u v huv ↦ ?_, fun u v huv ↦ ?_, fun v from' hv ↦ ?_, fun u v hlink hu huv ↦ ?_⟩
      · rw [announce_offer] at huv
        split at huv
        · rename_i hnew
          rw [hnew.1]
          exact ⟨hnew.1 ▸ hnew.2.1, announce_hearing_self ..⟩
        · exact (hspread.offered u v huv).imp_right (hother u)
      · rw [announce_offer] at huv
        split at huv
        · cases huv
        · exact hkeeps v (hspread.settled u v huv)
      · by_cases hva : v = a
        · rw [hva, announce_hearing_self] at hv
          cases hv
        · rw [announce_hearing_ne _ _ _ hva] at hv
          exact hkeeps _ (hspread.origin v from' hv)
      · rw [announce_offer] at huv
        split at huv
        · cases huv
        · rename_i hold
          by_cases hua : u = a
          · subst hua
            have hvo : v = origin := by
              by_contra hne
              exact hold ⟨rfl, hlink, hne⟩
            rw [hvo]
            exact hkeeps _ (hspread.origin u origin heard)
          · rw [announce_hearing_ne _ _ _ hua] at hu
            exact hkeeps v (hspread.covered u v hlink hu huv)
  | learn a b sent unaware =>
      obtain ⟨hlink, haware⟩ := hspread.offered a b (by simp [sent])
      have hold : ∀ v, ((f.setOffer a b .settled).setHearing b (.spreading a)).hearing v = .aware →
          f.hearing v = .aware := by
        intro v hv
        by_cases hvb : v = b
        · rw [hvb, setHearing_hearing_self] at hv
          cases hv
        · rwa [setHearing_hearing_ne _ _ hvb] at hv
      refine ⟨fun u v huv ↦ ?_, fun u v huv ↦ ?_, fun v from' hv ↦ ?_, fun u v hlink' hu huv ↦ ?_⟩
      · have hfrom : f.offer u v ≠ .idle := by
          rw [setHearing_offer, setOffer_offer] at huv
          split at huv
          · rename_i heq
            rw [heq.1, heq.2, sent]
            exact fun hh ↦ by cases hh
          · exact huv
        obtain ⟨hlinked, hknown⟩ := hspread.offered u v hfrom
        refine ⟨hlinked, ?_⟩
        by_cases hub : u = b
        · rw [hub, unaware] at hknown
          cases hknown
        · rwa [setHearing_hearing_ne _ _ hub]
      · rw [setHearing_offer, setOffer_offer] at huv
        split at huv
        · rename_i heq
          rw [heq.2, setHearing_hearing_self]
          exact Hearing.spreading_ne
        · exact hkeeps v (hspread.settled u v huv)
      · by_cases hvb : v = b
        · rw [hvb, setHearing_hearing_self] at hv
          cases hv
          exact hkeeps a (by rw [haware]; exact Hearing.aware_ne)
        · rw [setHearing_hearing_ne _ _ hvb] at hv
          exact hkeeps _ (hspread.origin v from' hv)
      · rw [setHearing_offer, setOffer_offer] at huv
        split at huv
        · cases huv
        · exact hkeeps v (hspread.covered u v hlink' (hold u hu) huv)

/-- One node knows the rumour and has queued its offers. -/
def started (links : Finset (V × V)) (source : V) : Flood V where
  hearing v := if v = source then .aware else .unaware
  offer u v := if u = source ∧ (u, v) ∈ links then .queued else .idle

theorem started_hearing (links : Finset (V × V)) (source v : V) :
    (started links source).hearing v = if v = source then .aware else .unaware := rfl

theorem started_offer (links : Finset (V × V)) (source u v : V) :
    (started links source).offer u v = if u = source ∧ (u, v) ∈ links then .queued else .idle := rfl

theorem started_spread (links : Finset (V × V)) (source : V) :
    (started links source).Spread links where
  offered u v h := by
    have hpair : u = source ∧ (u, v) ∈ links := by
      by_contra hnot
      exact h (if_neg hnot)
    exact ⟨hpair.2, if_pos hpair.1⟩
  settled u v h := by
    rw [started_offer] at h
    split at h <;> cases h
  origin v origin h := by
    rw [started_hearing] at h
    split at h <;> cases h
  covered u v hlink hu h := by
    have hsource : u = source := by
      by_contra hne
      rw [started_hearing, if_neg hne] at hu
      cases hu
    rw [started_offer, if_pos ⟨hsource, hlink⟩] at h
    cases h

omit [DecidableEq V] in
/-- Where nothing is left to do, all neighbours of one who knows the rumour know it. -/
theorem Spread.quiet (h : f.Spread links) (hhearing : ∀ v origin, f.hearing v ≠ .spreading origin)
    (hoffer : ∀ u v, f.offer u v = .idle ∨ f.offer u v = .settled)
    (hreach : Relation.ReflTransGen (fun a b ↦ (a, b) ∈ links) u v)
    (hknown : f.hearing u = .aware) : f.hearing v = .aware := by
  induction hreach with
  | refl => exact hknown
  | @tail b c _ hlink ih =>
      have hc : f.hearing c ≠ .unaware := by
        rcases hoffer b c with hidle | hsettled
        · exact h.covered b c hlink ih hidle
        · exact h.settled b c hsettled
      cases hcase : f.hearing c with
      | unaware => exact (hc hcase).elim
      | spreading origin => exact (hhearing c origin hcase).elim
      | aware => rfl

/-! ## The rank -/

variable [Fintype V]

/-- The steps that are left at most. -/
def rank (links : Finset (V × V)) (f : Flood V) : ℕ :=
  ∑ v, (f.hearing v).rank + ∑ p ∈ links, (f.offer p.1 p.2).rank

theorem rank_setOffer {offer : Offer} (hlink : (u, v) ∈ links)
    (hlt : offer.rank < (f.offer u v).rank) : (f.setOffer u v offer).rank links < f.rank links := by
  refine Nat.add_lt_add_left (Finset.sum_lt_sum (fun p _ ↦ ?_) ⟨(u, v), hlink, ?_⟩) _
  · rw [setOffer_offer]
    split
    · rename_i heq
      rw [heq.1, heq.2]
      exact hlt.le
    · rfl
  · simpa using hlt

theorem Step.rank_lt (h : Step links f g) (hspread : f.Spread links) :
    g.rank links < f.rank links := by
  have hlink : ∀ u v, f.offer u v ≠ .idle → (u, v) ∈ links := fun u v huv ↦
    (hspread.offered u v huv).1
  cases h with
  | tell u v queued =>
      exact rank_setOffer (hlink u v (by simp [queued])) (by rw [queued]; decide)
  | ask u v told _ => exact rank_setOffer (hlink u v (by simp [told])) (by rw [told]; decide)
  | ignore u v told _ => exact rank_setOffer (hlink u v (by simp [told])) (by rw [told]; decide)
  | send u v asked => exact rank_setOffer (hlink u v (by simp [asked])) (by rw [asked]; decide)
  | drop u v sent _ => exact rank_setOffer (hlink u v (by simp [sent])) (by rw [sent]; decide)
  | learn u v sent unaware =>
      have hoffer := rank_setOffer (hlink u v (by simp [sent]))
        (show Offer.settled.rank < _ by rw [sent]; decide)
      refine lt_of_le_of_lt (Nat.add_le_add_right (Finset.sum_le_sum fun w _ ↦ ?_) _) hoffer
      by_cases hw : w = v
      · rw [hw, setHearing_hearing_self, setOffer_hearing, unaware]
        exact le_refl 1
      · rw [setHearing_hearing_ne _ _ hw]
  | announce v origin heard =>
      refine Nat.add_lt_add_of_lt_of_le
        (Finset.sum_lt_sum (fun w _ ↦ ?_) ⟨v, Finset.mem_univ v, ?_⟩)
        (Finset.sum_le_sum fun p _ ↦ ?_)
      · by_cases hw : w = v
        · rw [hw, announce_hearing_self]
          exact Nat.zero_le _
        · rw [announce_hearing_ne _ _ _ hw]
      · rw [announce_hearing_self, heard]
        exact Nat.zero_lt_one
      · rw [announce_offer]
        split
        · rename_i hnew
          have hidle : f.offer p.1 p.2 = .idle := by
            by_contra hoffer
            have hknown := (hspread.offered p.1 p.2 hoffer).2
            rw [hnew.1, heard] at hknown
            cases hknown
          rw [hidle]
          exact le_refl 4
        · exact le_refl _

theorem rank_started_le (links : Finset (V × V)) (source : V) :
    (started links source).rank links ≤ Fintype.card V + 4 * links.card := by
  refine Nat.add_le_add ?_ ?_
  · refine (Finset.sum_le_card_nsmul _ _ 1 fun v _ ↦ ?_).trans ?_
    · rw [started_hearing]
      split
      · exact Nat.zero_le 1
      · exact le_refl 1
    · rw [Nat.nsmul_eq_mul, mul_one, Finset.card_univ]
  · refine (Finset.sum_le_card_nsmul _ _ 4 fun p _ ↦ ?_).trans ?_
    · rw [started_offer]
      split <;> exact le_refl 4
    · rw [Nat.nsmul_eq_mul, mul_comm]

end Flood

end Support
