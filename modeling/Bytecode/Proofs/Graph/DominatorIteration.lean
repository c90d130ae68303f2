import Bytecode.Proofs.Graph.DominatorTree
import Mathlib.Algebra.BigOperators.Group.List.Basic
import Mathlib.Logic.Function.Iterate
/-!
# The iteration settles

The parents found so far form a tree above the entry, and what the iteration improves is the set of ancestors of each
position: the ancestors of a common ancestor of several positions are exactly the ancestors that these share. An
improvement therefore never raises a parent. That is not immediate, because moving one position up moves everything below
it as well: the argument is that an ancestor which the current sweep has not passed yet was left in place by the sweep
before, as an ancestor of a predecessor which comes earlier in the order. So every sweep lowers the sum of all parents or
changes nothing, and when the iteration stops, the ancestors of a position are its own position and what its predecessors
share.
-/

namespace Bytecode.Dominators

variable {parents : Parents}

/-! ### Ancestors -/

/-- A position on the way up from `low`, which starts at `low` itself and takes only steps to smaller positions. -/
inductive Ancestor (parents : Parents) (high : Nat) : Nat → Prop
  | refl : Ancestor parents high high
  | up {low up : Nat} : parent? parents low = some up → up < low → Ancestor parents high up → Ancestor parents high low

namespace Ancestor

theorem le {high low : Nat} (h : Ancestor parents high low) : high ≤ low := by
  induction h with
  | refl => exact Nat.le_refl _
  | up _ hlt _ ih => omega

theorem trans {high middle low : Nat} (hhigh : Ancestor parents high middle) (hlow : Ancestor parents middle low) :
    Ancestor parents high low := by
  induction hlow with
  | refl => exact hhigh
  | up hparent hlt _ ih => exact .up hparent hlt ih

/-- What is above a position is the position itself or above its parent. -/
theorem eq_or_parent {high low up : Nat} (h : Ancestor parents high low) (hparent : parent? parents low = some up) :
    high = low ∨ Ancestor parents high up := by
  cases h with
  | refl => exact .inl rfl
  | up hother _ habove =>
    obtain rfl := Option.some.inj (hother.symm.trans hparent)
    exact .inr habove

/-- The ancestors of one position lie above one another. -/
theorem of_le {high middle low : Nat} (hhigh : Ancestor parents high low) (hmiddle : Ancestor parents middle low)
    (hle : high ≤ middle) : Ancestor parents high middle := by
  induction hmiddle with
  | refl => exact hhigh
  | up hparent hlt habove ih =>
    rcases hhigh.eq_or_parent hparent with rfl | hup
    · exact absurd habove.le (by omega)
    · exact ih hup

/-- The way up depends only on the parents of the positions on it. -/
theorem congr {others : Parents} {high low : Nat} (h : Ancestor parents high low)
    (hsame : ∀ position, high < position → Ancestor parents position low →
      parent? others position = parent? parents position) : Ancestor others high low := by
  induction h with
  | refl => exact .refl
  | up hparent hlt habove ih =>
    have hrest := ih fun position hless hon => hsame position hless (.up hparent hlt hon)
    have hsameLow := hsame _ (Nat.lt_of_le_of_lt habove.le hlt) .refl
    exact .up (hsameLow.trans hparent) hlt hrest

end Ancestor

theorem parent?_set_ne {position other : Nat} (hne : other ≠ position) (new : Option Nat) :
    parent? (parents.set position new) other = parent? parents other := by
  rw [parent?, parent?, List.getElem?_set_ne (Ne.symm hne)]

theorem parent?_set_self {position : Nat} (hlt : position < parents.length) (found : Nat) :
    parent? (parents.set position (some found)) position = some found := by
  rw [parent?, List.getElem?_set_self hlt]
  rfl

/-- A new parent keeps every way up that ends before its position is left. -/
theorem Ancestor.set {position high low : Nat} {new : Option Nat} (h : Ancestor parents high low)
    (hnot : high < position → ¬ Ancestor parents position low) : Ancestor (parents.set position new) high low := by
  refine h.congr fun other hless hon => parent?_set_ne ?_ new
  rintro rfl
  exact hnot hless hon

theorem Ancestor.of_set {position high low : Nat} {new : Option Nat}
    (h : Ancestor (parents.set position new) high low)
    (hnot : high < position → ¬ Ancestor (parents.set position new) position low) : Ancestor parents high low := by
  refine h.congr fun other hless hon => (parent?_set_ne ?_ new).symm
  rintro rfl
  exact hnot hless hon

/-! ### The tree of the parents found so far -/

def Placed (parents : Parents) (position : Nat) : Prop :=
  (parent? parents position).isSome = true

theorem placed_of_parent {position up : Nat} (h : parent? parents position = some up) : Placed parents position := by
  rw [Placed, h]
  rfl

theorem Placed.lt_length {position : Nat} (h : Placed parents position) : position < parents.length := by
  by_contra hnot
  rw [Placed, parent?, List.getElem?_eq_none (Nat.le_of_not_lt hnot)] at h
  cases h

theorem Placed.set {position other : Nat} (h : Placed parents other) (found : Nat) :
    Placed (parents.set position (some found)) other := by
  by_cases heq : other = position
  · rw [← heq, Placed, parent?_set_self h.lt_length]
    rfl
  · rwa [Placed, parent?_set_ne heq]

theorem Placed.of_set {position other : Nat} {new : Option Nat} (h : Placed (parents.set position new) other) :
    Placed parents other ∨ other = position := by
  by_cases heq : other = position
  · exact .inr heq
  · rw [Placed, parent?_set_ne heq] at h
    exact .inl h

/-- The parents lead up to the entry, and no parent is itself without one. -/
structure Rooted (parents : Parents) : Prop where
  root : parent? parents 0 = some 0
  smaller : ∀ position up, parent? parents position = some up → position ≠ 0 → up < position
  placed : ∀ position up, parent? parents position = some up → Placed parents up

private theorem Rooted.placed_of_ancestor (h : Rooted parents) {high low : Nat} (habove : Ancestor parents high low)
    (hlow : Placed parents low) : Placed parents high := by
  induction habove with
  | refl => exact hlow
  | up hparent _ _ ih => exact ih (h.placed _ _ hparent)

theorem Rooted.zero_ancestor (h : Rooted parents) {position : Nat} (hplaced : Placed parents position) :
    Ancestor parents 0 position := by
  induction position using Nat.strong_induction_on with
  | _ position ih =>
    by_cases hzero : position = 0
    · exact hzero ▸ .refl
    · obtain ⟨up, hparent⟩ := Option.isSome_iff_exists.1 hplaced
      have hlt := h.smaller position up hparent hzero
      exact .up hparent hlt (ih up hlt (h.placed position up hparent))

/-! ### Common ancestors -/

/-- The nearest common ancestor has above it what both positions share. -/
theorem ancestor_meet (h : Rooted parents) {left right : Nat} (hleft : Placed parents left)
    (hright : Placed parents right) (high : Nat) :
    Ancestor parents high (meet parents left right) ↔ Ancestor parents high left ∧ Ancestor parents high right := by
  -- the deeper position is not above the other one, so its parent shares as much with it
  have hstep : ∀ deep other up, other < deep → parent? parents deep = some up → up < deep →
      (Ancestor parents high deep ∧ Ancestor parents high other ↔
        Ancestor parents high up ∧ Ancestor parents high other) := by
    intro deep other up hless hparent hlt
    refine and_congr_left fun hother => ⟨fun hdeep => ?_, .up hparent hlt⟩
    refine (hdeep.eq_or_parent hparent).resolve_left ?_
    rintro rfl
    exact absurd hother.le (by omega)
  fun_induction meet parents left right with
  | case1 => exact (and_self_iff).symm
  | case2 left right _ hless up hparent hlt ih =>
    exact (ih (h.placed left up hparent) hright).trans (hstep left right up hless hparent hlt).symm
  | case3 left right _ hless up hparent hnlt => exact absurd (h.smaller left up hparent (by omega)) hnlt
  | case4 left right _ hless hnone => simp [Placed, hnone] at hleft
  | case5 left right hne hnlt up hparent hlt ih =>
    have hshared := (hstep right left up (by omega) hparent hlt).symm
    exact (ih hleft (h.placed right up hparent)).trans (and_comm.trans (hshared.trans and_comm))
  | case6 left right hne hnlt up hparent hnup => exact absurd (h.smaller right up hparent (by omega)) hnup
  | case7 left right hne hnlt hnone => simp [Placed, hnone] at hright

private theorem placed_meet (h : Rooted parents) {left right : Nat} (hleft : Placed parents left)
    (hright : Placed parents right) : Placed parents (meet parents left right) :=
  h.placed_of_ancestor ((ancestor_meet h hleft hright _).1 .refl).1 hleft

/-- Above each of the positions that have a parent. -/
def AboveAll (parents : Parents) (positions : List Nat) (high : Nat) : Prop :=
  ∀ position ∈ positions, Placed parents position → Ancestor parents high position

private theorem aboveAll_concat {positions : List Nat} {position high : Nat} (hplaced : Placed parents position) :
    AboveAll parents (positions ++ [position]) high ↔
      AboveAll parents positions high ∧ Ancestor parents high position := by
  simp only [AboveAll, List.forall_mem_append, List.forall_mem_singleton, hplaced, true_imp_iff]

private theorem aboveAll_concat_of_not {positions : List Nat} {position high : Nat} (hnot : ¬ Placed parents position) :
    AboveAll parents (positions ++ [position]) high ↔ AboveAll parents positions high := by
  simp only [AboveAll, List.forall_mem_append, List.forall_mem_singleton, hnot, false_imp_iff, and_true]

private theorem meetAll_concat (positions : List Nat) (position : Nat) :
    meetAll parents (positions ++ [position])
      = if (parent? parents position).isNone then meetAll parents positions
        else match meetAll parents positions with
          | none => some position
          | some current => some (meet parents position current) :=
  List.foldl_append

theorem not_placed_of_meetAll {positions : List Nat} (hnone : meetAll parents positions = none) :
    ∀ position ∈ positions, ¬ Placed parents position := by
  induction positions using List.reverseRecOn with
  | nil => exact fun _ hmem => absurd hmem List.not_mem_nil
  | append_singleton positions last ih =>
    rw [meetAll_concat] at hnone
    split at hnone
    · next hlast =>
      rw [List.forall_mem_append, List.forall_mem_singleton]
      refine ⟨ih hnone, ?_⟩
      rw [Placed, Option.isNone_iff_eq_none.1 hlast]
      exact Bool.false_ne_true
    · split at hnone <;> cases hnone

private theorem ancestor_meetAll (h : Rooted parents) {positions : List Nat} {found : Nat}
    (hfound : meetAll parents positions = some found) :
    Placed parents found ∧ ∀ high, Ancestor parents high found ↔ AboveAll parents positions high := by
  induction positions using List.reverseRecOn generalizing found with
  | nil => cases hfound
  | append_singleton positions last ih =>
    rw [meetAll_concat] at hfound
    split at hfound
    · next hlast =>
      have hnot : ¬ Placed parents last := by
        rw [Placed, Option.isNone_iff_eq_none.1 hlast]
        exact Bool.false_ne_true
      simp only [aboveAll_concat_of_not hnot]
      exact ih hfound
    · next hlast =>
      have hplaced : Placed parents last := Option.isSome_iff_ne_none.2 fun hnone => hlast (hnone ▸ rfl)
      simp only [aboveAll_concat hplaced]
      split at hfound
      · next hnone =>
        obtain rfl := Option.some.inj hfound
        refine ⟨hplaced, fun high => ⟨fun habove => ⟨fun position hmem hposition => ?_, habove⟩, fun hboth => hboth.2⟩⟩
        exact absurd hposition (not_placed_of_meetAll hnone position hmem)
      · next current hcurrent =>
        obtain rfl := Option.some.inj hfound
        obtain ⟨hplacedCurrent, hiff⟩ := ih hcurrent
        refine ⟨placed_meet h hplaced hplacedCurrent, fun high => ?_⟩
        rw [ancestor_meet h hplaced hplacedCurrent, hiff, and_comm]

/-! ### One improvement -/

variable {predecessors : Nat → List Nat}

/-- Every position but the first has a predecessor that comes earlier. -/
def Entered (predecessors : Nat → List Nat) (size : Nat) : Prop :=
  ∀ position, position ≠ 0 → position < size → ∃ earlier ∈ predecessors position, earlier < position

/-- What holds when a sweep is about to improve the position `next`. -/
structure Converging (predecessors : Nat → List Nat) (next : Nat) (parents : Parents) : Prop where
  rooted : Rooted parents
  placed : ∀ position < next, Placed parents position
  placed_before : ∀ position, Placed parents position → ∀ earlier < position, Placed parents earlier
  /-- A parent is not higher than what the predecessors share. -/
  shared_above : ∀ position up, position ≠ 0 → parent? parents position = some up →
    ∀ high, AboveAll parents (predecessors position) high → Ancestor parents high up
  /-- Where a predecessor comes earlier in the order, what is above a parent is above that predecessor: all of it, once
  the sweep has passed the position, and until then what the sweep has not passed. -/
  above_earlier : ∀ position up, position ≠ 0 → parent? parents position = some up →
    ∀ earlier ∈ predecessors position, earlier < position →
      ∀ high, Ancestor parents high up → position < next ∨ next ≤ high → Ancestor parents high earlier

namespace Converging

section Improve

variable {position found : Nat} (h : Converging predecessors position parents) (hpositive : position ≠ 0)
  (hless : found < position) (hfound : ∀ high, Ancestor parents high found ↔ AboveAll parents (predecessors position) high)

include h hpositive hless

private theorem rooted_set (hplaced : Placed parents found) : Rooted (parents.set position (some found)) where
  root := by rw [parent?_set_ne (Ne.symm hpositive), h.rooted.root]
  smaller other up hparent hother := by
    rcases parent?_set hparent with ⟨rfl, rfl⟩ | hold
    · exact hless
    · exact h.rooted.smaller other up hold hother
  placed other up hparent := by
    rcases parent?_set hparent with ⟨-, rfl⟩ | hold
    · exact hplaced.set up
    · exact (h.rooted.placed other up hold).set found

include hfound

/-- Nothing gains an ancestor, except the position itself if it had no parent. -/
theorem ancestor_of_set {high low : Nat} (habove : Ancestor (parents.set position (some found)) high low) :
    Ancestor parents high low ∨ low = position ∧ ¬ Placed parents position := by
  induction habove with
  | refl => exact .inl .refl
  | up hparent hlt habove ih =>
    rcases parent?_set hparent with ⟨heq, hnew⟩ | hold
    · by_cases hplaced : Placed parents position
      · -- what is above the new parent is shared by the predecessors, so it was above the old parent
        obtain ⟨up, hup⟩ := Option.isSome_iff_exists.1 hplaced
        have hfoundAbove : Ancestor parents high found :=
          (hnew ▸ habove).of_set fun _ hon => absurd hon.le (by omega)
        have hupAbove := h.shared_above position up hpositive hup high ((hfound high).1 hfoundAbove)
        exact .inl (heq ▸ .up hup (h.rooted.smaller position up hup hpositive) hupAbove)
      · exact .inr ⟨heq, hplaced⟩
    · rcases ih with hup | ⟨rfl, hnot⟩
      · exact .inl (.up hold hlt hup)
      · exact absurd (h.rooted.placed _ _ hold) hnot

private theorem aboveAll_of_set {positions : List Nat} {high : Nat}
    (hall : AboveAll (parents.set position (some found)) positions high) : AboveAll parents positions high := by
  intro other hmem hother
  rcases ancestor_of_set h hpositive hless hfound (hall other hmem (hother.set found)) with habove | ⟨rfl, hnot⟩
  · exact habove
  · exact absurd hother hnot

private theorem shared_above_set (hentered : Entered predecessors parents.length) {other up high : Nat}
    (hother : other ≠ 0)
    (hparent : parent? (parents.set position (some found)) other = some up)
    (hall : AboveAll (parents.set position (some found)) (predecessors other) high) :
    Ancestor (parents.set position (some found)) high up := by
  have hold := aboveAll_of_set h hpositive hless hfound hall
  rcases parent?_set hparent with ⟨rfl, rfl⟩ | hup
  · exact ((hfound high).2 hold).set fun _ hon => absurd hon.le (by omega)
  · have habove := h.shared_above other up hother hup high hold
    by_cases hon : high < position ∧ Ancestor parents position up
    · -- the position is above `other`, hence above a predecessor that comes before `other`, and `high` is above that too
      have hplaced := placed_of_parent hup
      obtain ⟨earlier, hmem, hearlier⟩ := hentered other hother hplaced.lt_length
      have hposition := h.above_earlier other up hother hup earlier hmem hearlier position hon.2 (.inr (Nat.le_refl _))
      have hhigh := hall earlier hmem ((h.placed_before other hplaced earlier hearlier).set found)
      have hkept : ∀ low, Ancestor parents position low → Ancestor (parents.set position (some found)) position low :=
        fun low hlow => hlow.set fun hirrefl => absurd hirrefl (Nat.lt_irrefl _)
      exact (hhigh.of_le (hkept earlier hposition) (Nat.le_of_lt hon.1)).trans (hkept up hon.2)
    · exact habove.set fun hlt hposition => hon ⟨hlt, hposition⟩

private theorem above_earlier_set (hlength : position < parents.length) {other up earlier high : Nat}
    (hother : other ≠ 0)
    (hparent : parent? (parents.set position (some found)) other = some up) (hmem : earlier ∈ predecessors other)
    (hearlier : earlier < other) (habove : Ancestor (parents.set position (some found)) high up)
    (hpassed : other < position + 1 ∨ position + 1 ≤ high) :
    Ancestor (parents.set position (some found)) high earlier := by
  rcases Nat.lt_trichotomy other position with hlt | rfl | hgt
  · -- nothing up to the position has changed
    rw [parent?_set_ne (Nat.ne_of_lt hlt)] at hparent
    have hup := h.rooted.smaller other up hparent hother
    have hold : Ancestor parents high up := habove.of_set fun _ hon => absurd hon.le (by omega)
    have hresult := h.above_earlier other up hother hparent earlier hmem hearlier high hold (.inl hlt)
    exact hresult.set fun _ hon => absurd hon.le (by omega)
  · obtain rfl := Option.some.inj ((parent?_set_self hlength found).symm.trans hparent)
    have hold : Ancestor parents high found := habove.of_set fun _ hon => absurd hon.le (by omega)
    have hresult := (hfound high).1 hold earlier hmem (h.placed earlier hearlier)
    exact hresult.set fun _ hon => absurd hon.le (by omega)
  · -- what is still to be passed lies below the position
    rw [parent?_set_ne (Nat.ne_of_gt hgt)] at hparent
    have hhigh : position + 1 ≤ high := hpassed.resolve_left (by omega)
    have hold : Ancestor parents high up := habove.of_set fun hlt => absurd hlt (by omega)
    have hresult := h.above_earlier other up hother hparent earlier hmem hearlier high hold (.inr (by omega))
    exact hresult.set fun hlt => absurd hlt (by omega)

theorem set (hlength : position < parents.length) (hplaced : Placed parents found)
    (hentered : Entered predecessors parents.length) :
    Converging predecessors (position + 1) (parents.set position (some found)) where
  rooted := rooted_set h hpositive hless hplaced
  placed other hother := by
    by_cases heq : other = position
    · subst heq
      exact placed_of_parent (parent?_set_self hlength found)
    · exact (h.placed other (by omega)).set found
  placed_before other hother earlier hearlier := by
    rcases hother.of_set with hold | rfl
    · exact (h.placed_before other hold earlier hearlier).set found
    · exact (h.placed earlier hearlier).set found
  shared_above _ _ hother hparent _ hall := shared_above_set h hpositive hless hfound hentered hother hparent hall
  above_earlier _ _ hother hparent _ hmem hearlier _ habove hpassed :=
    above_earlier_set h hpositive hless hfound hlength hother hparent hmem hearlier habove hpassed

end Improve

/-- An improvement takes what the predecessors share. -/
theorem improve_eq {position : Nat} (h : Converging predecessors position parents)
    (hentered : Entered predecessors parents.length) (hpositive : position ≠ 0) (hlength : position < parents.length) :
    ∃ found, improve predecessors parents position = parents.set position (some found) ∧ found < position ∧
      Placed parents found ∧
        ∀ high, Ancestor parents high found ↔ AboveAll parents (predecessors position) high := by
  obtain ⟨earlier, hmem, hearlier⟩ := hentered position hpositive hlength
  cases hmeet : meetAll parents (predecessors position) with
  | none => exact absurd (h.placed earlier hearlier) (not_placed_of_meetAll hmeet earlier hmem)
  | some found =>
    obtain ⟨hplaced, hfound⟩ := ancestor_meetAll h.rooted hmeet
    have habove := (hfound found).1 .refl earlier hmem (h.placed earlier hearlier)
    exact ⟨found, by rw [improve, hmeet], Nat.lt_of_le_of_lt habove.le hearlier, hplaced, hfound⟩

theorem improve {position : Nat} (h : Converging predecessors position parents)
    (hentered : Entered predecessors parents.length) (hpositive : position ≠ 0) (hlength : position < parents.length) :
    Converging predecessors (position + 1) (improve predecessors parents position) := by
  obtain ⟨found, heq, hless, hplaced, hfound⟩ := h.improve_eq hentered hpositive hlength
  rw [heq]
  exact h.set hpositive hless hfound hlength hplaced hentered

end Converging

private theorem length_improve (predecessors : Nat → List Nat) (parents : Parents) (position : Nat) :
    (improve predecessors parents position).length = parents.length := by
  unfold improve
  split
  · rfl
  · exact List.length_set

private theorem potential_set_lt {position found : Nat} (hlength : position < parents.length)
    (hlower : found < parents[position].getD parents.length) :
    potential (parents.set position (some found)) < potential parents := by
  have hset : ∀ parent : Option Nat, potential (parents.set position parent)
      = ((parents.take position).map (·.getD parents.length)).sum + parent.getD parents.length
        + ((parents.drop (position + 1)).map (·.getD parents.length)).sum := by
    intro parent
    have hsum : ∀ parents : Parents, potential parents = (parents.map (·.getD parents.length)).sum := by
      intro parents
      rw [potential, List.sum, List.foldr_map]
    rw [hsum, List.length_set, List.map_set, List.sum_set, List.length_map, if_pos hlength, List.map_take,
      List.map_drop]
  have hold := hset parents[position]
  rw [List.set_getElem_self] at hold
  rw [hset, hold, Option.getD_some]
  omega

/-- An improvement lowers the potential unless it changes nothing. -/
theorem Converging.potential_improve {position : Nat} (h : Converging predecessors position parents)
    (hentered : Entered predecessors parents.length) (hpositive : position ≠ 0) (hlength : position < parents.length) :
    Dominators.improve predecessors parents position = parents ∨
      potential (Dominators.improve predecessors parents position) < potential parents := by
  obtain ⟨found, heq, hless, hplaced, hfound⟩ := h.improve_eq hentered hpositive hlength
  rw [heq]
  cases hparent : parents[position] with
  | none => exact .inr (potential_set_lt hlength (by rw [hparent]; exact hplaced.lt_length))
  | some up =>
    have hup : parent? parents position = some up := by
      rw [parent?, List.getElem?_eq_getElem hlength, hparent]
      rfl
    have hle := (h.shared_above position up hpositive hup found ((hfound found).1 .refl)).le
    rcases Nat.eq_or_lt_of_le hle with rfl | hlt
    · left
      rw [← hparent, List.set_getElem_self]
    · exact .inr (potential_set_lt hlength (by rw [hparent]; exact hlt))

/-! ### Sweeps -/

/-- From `start` on there is nothing left to improve. -/
def Stable (predecessors : Nat → List Nat) (start : Nat) (parents : Parents) : Prop :=
  ∀ position, start ≤ position → position < parents.length → improve predecessors parents position = parents

/-- Improving one position after the other, up to the last one, lowers the potential or changes nothing. -/
theorem Converging.improve_from {start count : Nat} (h : Converging predecessors start parents)
    (hentered : Entered predecessors parents.length) (hpositive : start ≠ 0) (hcount : start + count = parents.length) :
    ∃ result, (List.range' start count).foldl (Dominators.improve predecessors) parents = result ∧
      result.length = parents.length ∧ Converging predecessors parents.length result ∧
      (Stable predecessors start parents ∧ result = parents ∨ potential result < potential parents) := by
  induction count generalizing start parents with
  | zero =>
    obtain rfl : start = parents.length := by omega
    exact ⟨parents, rfl, rfl, h, .inl ⟨fun position hle hlt => absurd hlt (Nat.not_lt_of_le hle), rfl⟩⟩
  | succ count ih =>
    have hlength : start < parents.length := by omega
    have hsame := length_improve predecessors parents start
    obtain ⟨result, hfold, hresult, hconverging, hprogress⟩ :=
      ih (h.improve hentered hpositive hlength) (hsame ▸ hentered) (by omega) (by omega)
    rw [hsame] at hresult hconverging
    refine ⟨result, by rw [List.range'_succ, List.foldl_cons, hfold], hresult, hconverging, ?_⟩
    rcases h.potential_improve hentered hpositive hlength with hkept | hlower
    · rw [hkept] at hprogress
      refine hprogress.imp_left fun ⟨hstable, hresult⟩ => ⟨fun position hle hlt => ?_, hresult⟩
      rcases Nat.eq_or_lt_of_le hle with rfl | hless
      · exact hkept
      · exact hstable position hless hlt
    · right
      rcases hprogress with ⟨-, rfl⟩ | hless
      · exact hlower
      · exact hless.trans hlower

private theorem sweep_eq (predecessors : Nat → List Nat) {count : Nat} (hcount : 1 + count = parents.length) :
    sweep predecessors parents = (List.range' 1 count).foldl (improve predecessors) parents := by
  rw [sweep, ← hcount, List.range_eq_range', Nat.add_comm, List.range'_succ, List.tail_cons]

/-- What a sweep has found is where the next one starts. -/
theorem Converging.restart (h : Converging predecessors parents.length parents) : Converging predecessors 1 parents where
  rooted := h.rooted
  placed position hlt := by
    obtain rfl : position = 0 := by omega
    exact placed_of_parent h.rooted.root
  placed_before := h.placed_before
  shared_above := h.shared_above
  above_earlier position up hpositive hparent earlier hmem hearlier high habove _ :=
    h.above_earlier position up hpositive hparent earlier hmem hearlier high habove
      (.inl (placed_of_parent hparent).lt_length)

theorem Converging.sweep (h : Converging predecessors 1 parents) (hentered : Entered predecessors parents.length) :
    (sweep predecessors parents).length = parents.length ∧
      Converging predecessors parents.length (sweep predecessors parents) ∧
      (Stable predecessors 1 parents ∧ sweep predecessors parents = parents ∨
        potential (sweep predecessors parents) < potential parents) := by
  have hroot : 0 < parents.length := (placed_of_parent h.rooted.root).lt_length
  obtain ⟨count, hcount⟩ := Nat.exists_eq_add_of_le hroot
  rw [sweep_eq predecessors hcount.symm]
  obtain ⟨result, rfl, hresult⟩ := h.improve_from hentered Nat.one_ne_zero hcount.symm
  exact hresult

/-- The iteration ends after some number of sweeps, with parents that a further sweep leaves as they are. -/
theorem Converging.settle (h : Converging predecessors 1 parents) (hentered : Entered predecessors parents.length) :
    ∃ sweeps, settle predecessors parents = (Dominators.sweep predecessors)^[sweeps] parents ∧
      (settle predecessors parents).length = parents.length ∧
      Converging predecessors parents.length (settle predecessors parents) ∧
      Stable predecessors 1 (settle predecessors parents) ∧
      Dominators.sweep predecessors (settle predecessors parents) = settle predecessors parents := by
  fun_induction Dominators.settle predecessors parents with
  | case1 parents next hless ih =>
    obtain ⟨hlength, hconverging, -⟩ := h.sweep hentered
    have hnext : Converging predecessors 1 next := (hlength.symm ▸ hconverging : Converging _ next.length next).restart
    obtain ⟨sweeps, heq, hsame, hrest⟩ := ih hnext (hlength.symm ▸ hentered)
    refine ⟨sweeps + 1, ?_, hsame.trans hlength, ?_⟩
    · rw [Function.iterate_succ_apply]
      exact heq
    · rw [← hlength]
      exact hrest
  | case2 parents next hnless =>
    obtain ⟨hlength, hconverging, hprogress⟩ := h.sweep hentered
    obtain ⟨hstable, hsame⟩ := hprogress.resolve_right hnless
    refine ⟨1, rfl, hlength, hconverging, ?_, ?_⟩
    · rw [show next = parents from hsame]
      exact hstable
    · rw [show next = parents from hsame, hsame]

/-! ### The settled parents -/

theorem parent?_initial {size position up : Nat} (h : parent? (initial size) position = some up) :
    position = 0 ∧ up = 0 := by
  rcases parent?_set h with heq | hnone
  · exact heq
  · rw [parent?, List.getElem?_replicate] at hnone
    split at hnone <;> cases hnone

theorem Converging.initial (predecessors : Nat → List Nat) {size : Nat} (hsize : 0 < size) :
    Converging predecessors 1 (initial size) := by
  have hroot : parent? (Dominators.initial size) 0 = some 0 :=
    parent?_set_self (by rw [List.length_replicate]; exact hsize) 0
  refine ⟨⟨hroot, ?_, ?_⟩, ?_, ?_, ?_, ?_⟩
  · exact fun position up hparent hpositive => absurd (parent?_initial hparent).1 hpositive
  · intro position up hparent
    rw [(parent?_initial hparent).2]
    exact placed_of_parent hroot
  · intro position hlt
    obtain rfl : position = 0 := by omega
    exact placed_of_parent hroot
  · intro position hplaced earlier hearlier
    obtain ⟨up, hparent⟩ := Option.isSome_iff_exists.1 hplaced
    obtain rfl := (parent?_initial hparent).1
    exact absurd hearlier (Nat.not_lt_zero _)
  · exact fun position up hpositive hparent => absurd (parent?_initial hparent).1 hpositive
  · exact fun position up hpositive hparent => absurd (parent?_initial hparent).1 hpositive

/-- Once nothing is left to improve, what is above a parent is what all predecessors share. -/
theorem Converging.ancestor_parent_iff (h : Converging predecessors parents.length parents)
    (hentered : Entered predecessors parents.length) (hstable : Stable predecessors 1 parents) {position up : Nat}
    (hpositive : position ≠ 0) (hparent : parent? parents position = some up) (high : Nat) :
    Ancestor parents high up ↔ AboveAll parents (predecessors position) high := by
  refine ⟨fun habove => ?_, h.shared_above position up hpositive hparent high⟩
  have hlength : position < parents.length := (placed_of_parent hparent).lt_length
  have hmeet : meetAll parents (predecessors position) = some up := by
    have hfixed := hstable position (Nat.one_le_iff_ne_zero.2 hpositive) hlength
    obtain ⟨earlier, hmem, hearlier⟩ := hentered position hpositive hlength
    cases hmeet : meetAll parents (predecessors position) with
    | none =>
      exact absurd (h.placed earlier (hearlier.trans hlength)) (not_placed_of_meetAll hmeet earlier hmem)
    | some found =>
      rw [Dominators.improve, hmeet] at hfixed
      change parents.set position (some found) = parents at hfixed
      have hself := parent?_set_self hlength found
      rw [hfixed, hparent] at hself
      exact hself.symm
  exact ((ancestor_meetAll h.rooted hmeet).2 high).1 habove

end Bytecode.Dominators
