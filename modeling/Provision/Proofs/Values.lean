import Std.Data.TreeMap

/-!
# Values of sorted maps

The values of a sorted map are the values found under its keys (`mem_values_iff`). Where each value
determines its key, they are listed in the order of keys (`pairwise_values`), no two have the same
(`nodup_map_values`), and putting the values into an empty map gives the same values again
(`values_foldl_insert`). Changing all values keeps their order (`values_map`).
-/

namespace Provision

variable {α β : Type} [Ord α] [Std.TransOrd α] [Std.LawfulEqOrd α]

omit [Std.TransOrd α] [Std.LawfulEqOrd α] in
theorem values_eq_map_toList (t : Std.TreeMap α β) : t.values = t.toList.map Prod.snd := by
  have h : t.values = t.foldr (fun _ v l => v :: l) [] := rfl
  rw [h, Std.TreeMap.foldr_eq_foldr_toList]
  induction t.toList with
  | nil => rfl
  | cons entry rest ih => rw [List.foldr_cons, List.map_cons, ih]

theorem mem_values_iff {t : Std.TreeMap α β} {v : β} : v ∈ t.values ↔ ∃ k : α, t[k]? = some v := by
  rw [values_eq_map_toList, List.mem_map]
  constructor
  · rintro ⟨⟨k, w⟩, hmem, rfl⟩
    exact ⟨k, Std.TreeMap.mem_toList_iff_getElem?_eq_some.1 hmem⟩
  · rintro ⟨k, hk⟩
    exact ⟨(k, v), Std.TreeMap.mem_toList_iff_getElem?_eq_some.2 hk, rfl⟩

open Std.DTreeMap.Internal in
omit [Std.TransOrd α] [Std.LawfulEqOrd α] in
/-- Two changes of all values in turn are one, down to the shape of the tree. -/
theorem map_map {γ δ : Type} (f : α → β → γ) (g : α → γ → δ) (t : Std.TreeMap α β) :
    (t.map f).map g = t.map fun k v => g k (f k v) := by
  have himpl (t : Impl α fun _ => β) : (t.map f).map g = t.map fun k v => g k (f k v) := by
    induction t with
    | leaf => rfl
    | inner size k v l r ihl ihr =>
      simp only [Impl.map] at ihl ihr ⊢
      rw [ihl, ihr]
  unfold Std.TreeMap.map Std.DTreeMap.map
  simp only [himpl]

omit [Std.TransOrd α] [Std.LawfulEqOrd α] in
theorem values_map {γ : Type} (f : α → β → γ) (g : β → γ) (hf : ∀ k v, f k v = g v)
    (t : Std.TreeMap α β) : (t.map f).values = t.values.map g := by
  rw [values_eq_map_toList, values_eq_map_toList, Std.TreeMap.toList_map, List.map_map,
    List.map_map]
  exact List.map_congr_left fun entry _ => hf entry.1 entry.2

section Keyed

variable (key : β → α) {t : Std.TreeMap α β}
  (hkey : ∀ (k : α) (v : β), t[k]? = some v → key v = k)

include hkey

theorem pairwise_values : t.values.Pairwise fun v w => compare (key v) (key w) = .lt := by
  rw [values_eq_map_toList, List.pairwise_map]
  refine Std.TreeMap.ordered_keys_toList.imp_of_mem fun {a b} ha hb hlt => ?_
  rw [hkey a.1 a.2 (Std.TreeMap.mem_toList_iff_getElem?_eq_some.1 ha),
    hkey b.1 b.2 (Std.TreeMap.mem_toList_iff_getElem?_eq_some.1 hb)]
  exact hlt

theorem nodup_map_values : (t.values.map key).Nodup := by
  rw [List.Nodup, List.pairwise_map]
  refine (pairwise_values key hkey).imp fun {v w} hlt heq => ?_
  rw [heq, Std.compare_self] at hlt
  cases hlt

end Keyed

section Rebuilding

variable {key : β → α}

theorem getElem?_foldl_insert_of_forall_ne {vs : List β} {k : α} (h : ∀ v ∈ vs, key v ≠ k)
    (t : Std.TreeMap α β) : (vs.foldl (fun t v => t.insert (key v) v) t)[k]? = t[k]? := by
  induction vs generalizing t with
  | nil => rfl
  | cons v rest ih =>
    rw [List.foldl_cons, ih fun w hw => h w (List.mem_cons_of_mem v hw), Std.TreeMap.getElem?_insert,
      if_neg]
    intro heq
    exact h v List.mem_cons_self (Std.LawfulEqOrd.eq_of_compare heq)

theorem getElem?_foldl_insert_of_mem {vs : List β} (h : (vs.map key).Nodup) {v : β} (hv : v ∈ vs)
    (t : Std.TreeMap α β) : (vs.foldl (fun t v => t.insert (key v) v) t)[key v]? = some v := by
  induction vs generalizing t with
  | nil => cases hv
  | cons w rest ih =>
    rw [List.map_cons, List.nodup_cons] at h
    rw [List.foldl_cons]
    rcases List.mem_cons.1 hv with rfl | hv
    · have hother : ∀ w ∈ rest, key w ≠ key v := fun w hw heq =>
        h.1 (heq ▸ List.mem_map_of_mem hw)
      rw [getElem?_foldl_insert_of_forall_ne hother, Std.TreeMap.getElem?_insert_self]
    · exact ih h.2 hv _

theorem values_foldl_insert {t : Std.TreeMap α β}
    (hkey : ∀ (k : α) (v : β), t[k]? = some v → key v = k) :
    (t.values.foldl (fun t v => t.insert (key v) v) ({} : Std.TreeMap α β)).values = t.values := by
  refine Std.TreeMap.Equiv.values_eq (.of_forall_constGet?_eq fun k => ?_)
  rcases hk : t[k]? with _ | v
  · refine getElem?_foldl_insert_of_forall_ne (fun v hv heq => ?_) _
    obtain ⟨k', hk'⟩ := mem_values_iff.1 hv
    rw [← hkey k' v hk', heq, hk] at hk'
    cases hk'
  · obtain rfl := hkey k v hk
    exact getElem?_foldl_insert_of_mem (nodup_map_values key hkey) (mem_values_iff.2 ⟨_, hk⟩) _

end Rebuilding

end Provision
