import BillGrammar.Lint.Reference
import Mathlib.Data.Finset.Card
import Mathlib.Logic.Relation

namespace BillGrammar

namespace ReferenceGraph

open Relation

variable {g : ReferenceGraph}

def Refers (g : ReferenceGraph) (t u : Table) : Prop := u ∈ g.targets t

theorem exists_path_of_mem_search (h : u ∈ g.search rounds unseen pending) :
    ∃ t ∈ pending, ReflTransGen g.Refers t u := by
  induction rounds generalizing unseen pending with
  | zero => simp [search] at h
  | succ rounds ih =>
    rw [search] at h
    split at h
    · simp at h
    case h_2 t hfind =>
      have ht : t ∈ pending := List.mem_of_find?_eq_some hfind
      rcases List.mem_cons.mp h with rfl | h
      · exact ⟨u, ht, .refl⟩
      · obtain ⟨v, hv, hpath⟩ := ih h
        rcases List.mem_append.mp hv with hv | hv
        · exact ⟨t, ht, .head hv hpath⟩
        · exact ⟨v, hv, hpath⟩

/-- What is left to see behind tables seen earlier is pending: so it is before every round. -/
def Frontier (g : ReferenceGraph) (unseen pending : List Table) : Prop :=
  ∀ t u, g.Refers t u → t ∉ unseen → u ∈ unseen → u ∈ pending

theorem Frontier.step (hf : g.Frontier unseen pending) :
    g.Frontier (unseen.erase v) (g.targets v ++ pending) := by
  intro t u htu ht hu
  rw [List.mem_append]
  by_cases htv : t = v
  · exact .inl (htv ▸ htu)
  · rw [List.mem_erase_of_ne htv] at ht
    exact .inr (hf t u htu ht (List.mem_of_mem_erase hu))

theorem mem_search (hn : unseen.Nodup) (hlen : unseen.length ≤ rounds)
    (hf : g.Frontier unseen pending) (hu : u ∈ unseen)
    (h : u ∈ pending ∨ ∃ t, g.Refers t u ∧ (t ∉ unseen ∨ t ∈ g.search rounds unseen pending)) :
    u ∈ g.search rounds unseen pending := by
  -- Each round takes a table out of the unseen ones, so the rounds last as long as there are any.
  induction rounds generalizing unseen pending with
  | zero =>
    rw [List.length_eq_zero_iff.mp (Nat.le_zero.mp hlen)] at hu
    simp at hu
  | succ rounds ih =>
    rw [search] at h ⊢
    split at h
    case h_1 hfind =>
      simp only [List.find?_eq_none, List.contains_iff_mem] at hfind
      have hp : u ∈ pending := by
        rcases h with h | ⟨t, htu, ht⟩
        · exact h
        · exact hf t u htu (by simpa using ht) hu
      exact absurd hu (hfind u hp)
    case h_2 v hfind =>
      have hv : v ∈ unseen := List.contains_iff_mem.mp (List.find?_some hfind)
      have hlen' : (unseen.erase v).length ≤ rounds := by
        rw [List.length_erase_of_mem hv]
        omega
      by_cases huv : u = v
      · exact huv ▸ List.mem_cons_self
      refine List.mem_cons_of_mem v
        (ih (hn.erase v) hlen' hf.step ((List.mem_erase_of_ne huv).mpr hu) ?_)
      rcases h with h | ⟨t, htu, ht | ht⟩
      · exact .inl (List.mem_append_right _ h)
      · exact .inr ⟨t, htu, .inl fun h => ht (List.mem_of_mem_erase h)⟩
      · rcases List.mem_cons.mp ht with rfl | ht
        · exact .inr ⟨t, htu, .inl hn.not_mem_erase⟩
        · exact .inr ⟨t, htu, .inr ht⟩

theorem search_nil : g.search rounds [] pending = [] := by
  cases rounds with
  | zero => rfl
  | succ rounds =>
    have hfind : pending.find? (([] : List Table).contains ·) = none := by
      simp [List.find?_eq_none]
    rw [search, hfind]

theorem search_of_length_le (hm : unseen.length ≤ m) (hn : unseen.length ≤ n) :
    g.search m unseen pending = g.search n unseen pending := by
  induction m generalizing n unseen pending with
  | zero => rw [List.length_eq_zero_iff.mp (Nat.le_zero.mp hm), search_nil, search_nil]
  | succ m ih =>
    cases n with
    | zero => rw [List.length_eq_zero_iff.mp (Nat.le_zero.mp hn), search_nil, search_nil]
    | succ n =>
      rw [search, search]
      split
      · rfl
      case h_2 v hfind =>
        have hv : v ∈ unseen := List.contains_iff_mem.mp (List.find?_some hfind)
        have hlen := List.length_erase_of_mem hv
        rw [ih (n := n) (by omega) (by omega)]

theorem mem_reachedFrom {t u : Table} : u ∈ g.reachedFrom t ↔ ReflTransGen g.Refers t u := by
  have hall : g.Frontier Table.all [t] := fun v _ _ hv => absurd (Table.mem_all v) hv
  have hn : Table.all.Nodup := by decide
  simp only [reachedFrom, List.mem_filter, Table.mem_all, true_and, List.contains_iff_mem]
  constructor
  · intro h
    obtain ⟨v, hv, hpath⟩ := exists_path_of_mem_search h
    rwa [List.mem_singleton.mp hv] at hpath
  · intro h
    induction h with
    | refl => exact mem_search hn (Nat.le_refl _) hall (Table.mem_all t) (.inl List.mem_cons_self)
    | tail _ hvu ih =>
      exact mem_search hn (Nat.le_refl _) hall (Table.mem_all _) (.inr ⟨_, hvu, .inr ih⟩)

theorem isRecursive_iff {t : Table} : g.isRecursive t ↔ TransGen g.Refers t t := by
  simp only [isRecursive, List.any_eq_true, List.contains_iff_mem, mem_reachedFrom]
  exact (TransGen.head'_iff (r := g.Refers)).symm

/-! Where no table that is reached is recursive, references lead down. -/

def rank (g : ReferenceGraph) (t : Table) : Nat := (g.reachedFrom t).toFinset.card

theorem rank_pos (t : Table) : 0 < g.rank t :=
  Finset.card_pos.mpr ⟨t, List.mem_toFinset.mpr (mem_reachedFrom.mpr .refl)⟩

theorem rank_le (t : Table) : g.rank t ≤ Table.all.length :=
  (List.toFinset_card_le _).trans (List.length_filter_le _ _)

theorem rank_lt {t u : Table} (htu : g.Refers t u) (ht : ¬ g.isRecursive t) :
    g.rank u < g.rank t := by
  apply Finset.card_lt_card
  rw [Finset.ssubset_iff_of_subset]
  · refine ⟨t, List.mem_toFinset.mpr (mem_reachedFrom.mpr .refl), fun h => ht ?_⟩
    rw [List.mem_toFinset, mem_reachedFrom] at h
    exact isRecursive_iff.mpr (.head' htu h)
  · intro v hv
    rw [List.mem_toFinset, mem_reachedFrom] at hv ⊢
    exact .head htu hv

end ReferenceGraph

end BillGrammar
