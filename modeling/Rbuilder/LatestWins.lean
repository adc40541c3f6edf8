/-
  Events that arrive in any order, of which the latest by stamp counts.

  `IsLatest stamp events r`: `r` is an event of the greatest stamp, and `none` without
  events. An event that arrives is ignored or takes over (`IsLatest.keep`,
  `IsLatest.replace`). Where a stamp determines its event the latest one is unique
  (`IsLatest.eq`), so it does not depend on the order of arrival.

  `latest` is the first event of the greatest stamp. An event may be moved ahead of others
  unless it then comes before an event of the same stamp that was the latest
  (`latest_insert`).
-/
import Mathlib.Order.Lattice
import Mathlib.Data.List.Perm.Basic
import Mathlib.Data.List.Induction

namespace LatestWins

open List

variable {ε S : Type} [LinearOrder S] {stamp : ε → S}

def IsLatest (stamp : ε → S) (events : List ε) : Option ε → Prop
  | none => events = []
  | some e => e ∈ events ∧ ∀ d ∈ events, stamp d ≤ stamp e

/-- An event that is repeated counts as one. -/
def DistinctStamps (stamp : ε → S) (events : List ε) : Prop :=
  ∀ e ∈ events, ∀ d ∈ events, stamp e = stamp d → e = d

variable {events events' : List ε} {r r' : Option ε} {d e : ε}

theorem IsLatest.nil : IsLatest stamp [] none := rfl

theorem IsLatest.perm (h : IsLatest stamp events r) (hp : events.Perm events') :
    IsLatest stamp events' r := by
  cases r with
  | none =>
    have hempty : events = [] := h
    subst hempty
    exact hp.nil_eq.symm
  | some e => exact ⟨hp.mem_iff.mp h.1, fun d hd => h.2 d (hp.mem_iff.mpr hd)⟩

theorem IsLatest.eq (hu : DistinctStamps stamp events) (h : IsLatest stamp events r)
    (h' : IsLatest stamp events r') : r = r' := by
  cases r with
  | none =>
    have hempty : events = [] := h
    subst hempty
    cases r' with
    | none => rfl
    | some e => exact (not_mem_nil h'.1).elim
  | some e =>
    cases r' with
    | none =>
      have hempty : events = [] := h'
      subst hempty
      exact (not_mem_nil h.1).elim
    | some d =>
      have hstamp : stamp e = stamp d := le_antisymm (h'.2 e h.1) (h.2 d h'.1)
      rw [hu e h.1 d h'.1 hstamp]

/-- An event that is not later is ignored. -/
theorem IsLatest.keep (h : IsLatest stamp events (some e)) (hle : stamp d ≤ stamp e) :
    IsLatest stamp (events ++ [d]) (some e) := by
  refine ⟨mem_append_left _ h.1, fun c hc => ?_⟩
  obtain hc | hc := mem_append.mp hc
  · exact h.2 c hc
  · rw [mem_singleton.mp hc]
    exact hle

/-- A later event takes over. -/
theorem IsLatest.replace (h : IsLatest stamp events r) (hle : ∀ e, r = some e → stamp e ≤ stamp d) :
    IsLatest stamp (events ++ [d]) (some d) := by
  refine ⟨mem_append_right _ (mem_singleton.mpr rfl), fun c hc => ?_⟩
  obtain hc | hc := mem_append.mp hc
  · cases r with
    | none =>
      have hempty : events = [] := h
      rw [hempty] at hc
      exact (not_mem_nil hc).elim
    | some e => exact le_trans (h.2 c hc) (hle e rfl)
  · rw [mem_singleton.mp hc]

/-! ## The first latest event -/

/-- The event takes over if it is later. -/
def pick (stamp : ε → S) (r : Option ε) (e : ε) : Option ε :=
  match r with
  | none => some e
  | some d => if stamp e ≤ stamp d then some d else some e

def latest (stamp : ε → S) (events : List ε) : Option ε := events.foldl (pick stamp) none

/-- What is left of two. -/
def join (stamp : ε → S) (r : Option ε) : Option ε → Option ε
  | none => r
  | some e => pick stamp r e

theorem pick_join (r r' : Option ε) (e : ε) :
    pick stamp (join stamp r r') e = join stamp r (pick stamp r' e) := by
  cases r' with
  | none => rfl
  | some d =>
    cases r with
    | none | some c => grind [pick, join]

theorem latest_append (xs ys : List ε) :
    latest stamp (xs ++ ys) = join stamp (latest stamp xs) (latest stamp ys) := by
  unfold latest
  rw [foldl_append]
  induction ys using reverseRecOn with
  | nil => rfl
  | append_singleton ys y ih => rw [foldl_append, foldl_append, ih]; exact pick_join ..

theorem latest_append_singleton (xs : List ε) (e : ε) :
    latest stamp (xs ++ [e]) = pick stamp (latest stamp xs) e :=
  foldl_append

theorem isLatest_latest (events : List ε) : IsLatest stamp events (latest stamp events) := by
  induction events using reverseRecOn with
  | nil => exact .nil
  | append_singleton events e ih =>
    rw [latest_append_singleton]
    cases hl : latest stamp events with
    | none =>
      rw [hl] at ih
      exact ih.replace fun d hd => by cases hd
    | some d =>
      rw [hl] at ih
      by_cases hle : stamp e ≤ stamp d
      · rw [pick, if_pos hle]
        exact ih.keep hle
      · rw [pick, if_neg hle]
        exact ih.replace fun c hc => by cases hc; exact le_of_lt (not_le.mp hle)

/-- An event that came before is ignored. -/
theorem latest_repeated (h : e ∈ events) : latest stamp (events ++ [e]) = latest stamp events := by
  rw [latest_append_singleton]
  have hlatest : IsLatest stamp events (latest stamp events) := isLatest_latest events
  cases hl : latest stamp events with
  | none =>
    rw [hl] at hlatest
    rw [show events = [] from hlatest] at h
    cases h
  | some d =>
    rw [hl] at hlatest
    rw [pick, if_pos (hlatest.2 e h)]

/-- An event may come ahead of others where none of these has its stamp and is the latest. -/
theorem latest_insert (xs ys : List ε) (e : ε)
    (h : ∀ y, latest stamp ys = some y → stamp y = stamp e →
      ∃ x, latest stamp xs = some x ∧ stamp e ≤ stamp x) :
    latest stamp (xs ++ e :: ys) = pick stamp (latest stamp (xs ++ ys)) e := by
  rw [← singleton_append, ← append_assoc, latest_append, latest_append_singleton, latest_append]
  cases hy : latest stamp ys with
  | none => rfl
  | some y =>
    cases hx : latest stamp xs with
    | none | some x =>
      grind [pick, join]

end LatestWins
