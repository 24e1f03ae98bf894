import Mathlib.Data.Finset.Card
import Mathlib.Data.List.Basic

/-!
# Lib — a state for each key

An ordered map that folds a sequence of observations, each into the state of
its key, and takes no new key once it is full.  As long as the keys fit, the
map is the same as one fold a key (`getElem?_run`): what is observed of one
key does not touch another, and neither does the order between them.
-/

namespace GovFuzz.Lib.KeyedFold

variable {κ σ ω : Type}

section Observed

variable [DecidableEq κ]

/-- What is observed of one key. -/
def seen (key : κ) (entries : List (κ × ω)) : List ω :=
  entries.filterMap fun entry => if entry.1 = key then some entry.2 else none

/-- The state a key ends in. -/
def stateOf (update : Option σ → ω → σ) (state : Option σ) (observed : List ω) : Option σ :=
  observed.foldl (fun state o => some (update state o)) state

theorem mem_seen {key : κ} {entries : List (κ × ω)} {o : ω} :
    o ∈ seen key entries ↔ (key, o) ∈ entries := by
  simp only [seen, List.mem_filterMap]
  constructor
  · rintro ⟨entry, hentry, heq⟩
    split at heq
    case isTrue hkey =>
      cases heq
      rw [← hkey]
      exact hentry
    case isFalse => cases heq
  · intro hentry
    exact ⟨(key, o), hentry, if_pos rfl⟩

end Observed

variable [Ord κ]

def step (limit : Nat) (update : Option σ → ω → σ) (map : Std.TreeMap κ σ) (entry : κ × ω) :
    Std.TreeMap κ σ :=
  if !map.contains entry.1 && decide (limit ≤ map.size) then map
  else map.insert entry.1 (update map[entry.1]? entry.2)

def run (limit : Nat) (update : Option σ → ω → σ) (map : Std.TreeMap κ σ)
    (entries : List (κ × ω)) : Std.TreeMap κ σ :=
  entries.foldl (step limit update) map

theorem run_append (limit : Nat) (update : Option σ → ω → σ) (map : Std.TreeMap κ σ)
    (entries more : List (κ × ω)) :
    run limit update map (entries ++ more)
      = run limit update (run limit update map entries) more :=
  List.foldl_append

variable [Std.TransOrd κ] [Std.LawfulEqOrd κ] [DecidableEq κ]

/-- A map whose keys come from a set has room for one more of the set. -/
theorem size_lt_card {map : Std.TreeMap κ σ} {keys : Finset κ} {key : κ}
    (hkeys : ∀ k ∈ map, k ∈ keys) (hkey : key ∈ keys) (hnew : key ∉ map) :
    map.size < keys.card := by
  have hnodup : map.keys.Nodup := Std.TreeMap.nodup_keys
  have hsub : map.keys.toFinset ⊆ keys.erase key := by
    intro k hk
    have hmem : k ∈ map := Std.TreeMap.mem_keys.mp (List.mem_toFinset.mp hk)
    refine Finset.mem_erase.mpr ⟨?_, hkeys k hmem⟩
    rintro rfl
    exact hnew hmem
  have hcard := Finset.card_le_card hsub
  rw [List.toFinset_card_of_nodup hnodup, Std.TreeMap.length_keys] at hcard
  exact lt_of_le_of_lt hcard (Finset.card_erase_lt_of_mem hkey)

theorem step_of_room {limit : Nat} {update : Option σ → ω → σ} {map : Std.TreeMap κ σ}
    {keys : Finset κ} {entry : κ × ω} (hlimit : keys.card ≤ limit)
    (hkeys : ∀ k ∈ map, k ∈ keys) (hkey : entry.1 ∈ keys) :
    step limit update map entry = map.insert entry.1 (update map[entry.1]? entry.2) := by
  unfold step
  rw [if_neg]
  intro hfull
  simp only [Bool.and_eq_true, Bool.not_eq_true', decide_eq_true_eq] at hfull
  have hnew : entry.1 ∉ map := by
    rw [Std.TreeMap.mem_iff_contains, hfull.1]
    decide
  have hroom := size_lt_card hkeys hkey hnew
  omega

/-- With room for every key, what a run holds under one is the fold of what it saw of it. -/
theorem getElem?_run_of_room {limit : Nat} {update : Option σ → ω → σ} {keys : Finset κ}
    (hlimit : keys.card ≤ limit) {entries : List (κ × ω)} {map : Std.TreeMap κ σ}
    (hkeys : ∀ k ∈ map, k ∈ keys) (hentries : ∀ entry ∈ entries, entry.1 ∈ keys) (key : κ) :
    (run limit update map entries)[key]? = stateOf update map[key]? (seen key entries) := by
  -- the entries that are left all find room
  induction entries generalizing map with
  | nil => rfl
  | cons entry entries ih =>
      have hentry := hentries entry List.mem_cons_self
      have hstep : step limit update map entry = _ := step_of_room hlimit hkeys hentry
      have hkeys' : ∀ k ∈ map.insert entry.1 (update map[entry.1]? entry.2), k ∈ keys := by
        intro k hk
        rcases Std.TreeMap.mem_insert.mp hk with heq | hmem
        · rw [← Std.LawfulEqOrd.eq_of_compare heq]
          exact hentry
        · exact hkeys k hmem
      have hrest := ih hkeys' fun other hother => hentries other (List.mem_cons_of_mem _ hother)
      show (run limit update (step limit update map entry) entries)[key]? = _
      rw [hstep, hrest, Std.TreeMap.getElem?_insert]
      by_cases heq : entry.1 = key
      · have hseen : seen key (entry :: entries) = entry.2 :: seen key entries :=
          List.filterMap_cons_some (if_pos heq)
        rw [if_pos (by rw [heq]; exact Std.ReflCmp.compare_self), hseen, heq]
        rfl
      · have hseen : seen key (entry :: entries) = seen key entries :=
          List.filterMap_cons_none (if_neg heq)
        rw [if_neg (fun h => heq (Std.LawfulEqOrd.eq_of_compare h)), hseen]

/-- While the keys fit, each key has a fold of its own. -/
theorem getElem?_run {limit : Nat} {update : Option σ → ω → σ} {entries : List (κ × ω)}
    (hlimit : (entries.map Prod.fst).toFinset.card ≤ limit) (key : κ) :
    (run limit update ∅ entries)[key]? = stateOf update none (seen key entries) := by
  have hnone : (∅ : Std.TreeMap κ σ)[key]? = none := Std.TreeMap.getElem?_emptyc
  rw [← hnone]
  refine getElem?_run_of_room hlimit (fun k hk => ?_) (fun entry hentry => ?_) key
  · exact absurd hk Std.TreeMap.not_mem_emptyc
  · exact List.mem_toFinset.mpr (List.mem_map_of_mem hentry)

/-! ## Without a limit -/

/-- One observation goes into the state of its key. -/
def fold (update : Option σ → ω → σ) (map : Std.TreeMap κ σ) (entries : List (κ × ω)) :
    Std.TreeMap κ σ :=
  entries.foldl (fun map entry => map.insert entry.1 (update map[entry.1]? entry.2)) map

/-- Each key has a fold of its own. -/
theorem getElem?_fold (update : Option σ → ω → σ) (map : Std.TreeMap κ σ)
    (entries : List (κ × ω)) (key : κ) :
    (fold update map entries)[key]? = stateOf update map[key]? (seen key entries) := by
  induction entries generalizing map with
  | nil => rfl
  | cons entry entries ih =>
      show (fold update (map.insert entry.1 (update map[entry.1]? entry.2)) entries)[key]? = _
      rw [ih, Std.TreeMap.getElem?_insert]
      by_cases heq : entry.1 = key
      · have hseen : seen key (entry :: entries) = entry.2 :: seen key entries :=
          List.filterMap_cons_some (if_pos heq)
        rw [if_pos (by rw [heq]; exact Std.ReflCmp.compare_self), hseen, heq]
        rfl
      · have hseen : seen key (entry :: entries) = seen key entries :=
          List.filterMap_cons_none (if_neg heq)
        rw [if_neg (fun h => heq (Std.LawfulEqOrd.eq_of_compare h)), hseen]

end GovFuzz.Lib.KeyedFold
