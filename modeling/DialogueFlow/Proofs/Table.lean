import DialogueFlow.Table
import Mathlib.Data.List.Induction
import Mathlib.Data.List.Nodup

namespace DialogueFlow.Table

variable {α β : Type}

theorem ext_entries {s t : Table α} (h : s.entries = t.entries) : s = t := by
  cases s
  cases t
  cases h
  rfl

theorem entries_map (f : α → β) (t : Table α) :
    (t.map f).entries = t.entries.map (fun e => (e.1, f e.2)) := rfl

theorem mem_entries_of_get? {t : Table α} {key : String} {value : α}
    (h : t.get? key = some value) : (key, value) ∈ t.entries := by
  obtain ⟨l₁, l₂, hl, -⟩ := List.lookup_eq_some_iff.mp h
  rw [hl]
  simp

theorem mem_keys_iff {t : Table α} {key : String} :
    key ∈ t.keys ↔ ∃ value, t.get? key = some value := by
  apply Iff.intro
  · intro h
    cases hk : t.get? key with
    | none =>
      obtain ⟨e, he, rfl⟩ := List.mem_map.mp h
      have hne := List.lookup_eq_none_iff.mp hk e he
      simp at hne
    | some value => exact ⟨value, rfl⟩
  · intro h
    obtain ⟨value, hv⟩ := h
    exact List.mem_map_of_mem (mem_entries_of_get? hv)

theorem get?_eq_some_iff {t : Table α} {key : String} {value : α} :
    t.get? key = some value ↔ (key, value) ∈ t.entries := by
  apply Iff.intro
  · exact mem_entries_of_get?
  · intro h
    obtain ⟨other, ho⟩ := mem_keys_iff.mp (List.mem_map_of_mem h)
    have he := List.inj_on_of_nodup_map t.nodup h (mem_entries_of_get? ho) rfl
    rw [ho, (Prod.mk.inj he).2]

theorem contains_iff {t : Table α} {key : String} : t.contains key = true ↔ key ∈ t.keys := by
  rw [mem_keys_iff, contains, Option.isSome_iff_exists]

theorem entries_insert {t : Table α} {key : String} (h : key ∉ t.keys) (value : α) :
    (t.insert key value).entries = t.entries ++ [(key, value)] := by
  obtain ⟨entries, nodup⟩ := t
  simp only [keys, insert] at h ⊢
  clear nodup
  induction entries with
  | nil => rfl
  | cons e rest ih =>
    rw [List.map_cons, List.mem_cons, not_or] at h
    rw [setEntry, if_neg (Ne.symm h.1), ih h.2, List.cons_append]

theorem mem_setEntry {key : String} {value : α} {e : String × α} {entries : List (String × α)}
    (h : e ∈ setEntry key value entries) : e = (key, value) ∨ e ∈ entries := by
  induction entries with
  | nil => exact .inl (List.mem_singleton.mp h)
  | cons d rest ih =>
    rw [setEntry] at h
    split at h
    · next hk =>
      obtain rfl | h := List.mem_cons.mp h
      · exact .inl (by rw [hk])
      · exact .inr (List.mem_cons_of_mem _ h)
    · obtain rfl | h := List.mem_cons.mp h
      · exact .inr List.mem_cons_self
      · exact (ih h).imp_right (List.mem_cons_of_mem _)

theorem lookup_setEntry (key other : String) (value : α) (entries : List (String × α)) :
    (setEntry key value entries).lookup other =
      if other = key then some value else entries.lookup other := by
  induction entries with
  | nil => grind [setEntry]
  | cons e rest ih => grind [setEntry]

/-- Give `key` a value, if there is one. -/
def put (t : Table α) (key : String) : Option α → Table α
  | some value => t.insert key value
  | none => t

theorem mem_keys_put {t : Table α} {key name : String} {value? : Option α}
    (h : name ∈ (t.put key value?).keys) : name ∈ t.keys ∨ name = key := by
  cases value? with
  | none => exact .inl h
  | some value =>
    rw [put, keys_insert] at h
    split at h
    · exact .inl h
    · simpa using h

theorem entries_put {t : Table α} {key : String} (h : key ∉ t.keys) (value? : Option α) :
    (t.put key value?).entries = t.entries ++ (value?.map (fun v => (key, v))).toList := by
  cases value? with
  | none => simp [put]
  | some value => exact entries_insert h value

/-- New keys go to the end in the order in which they come. -/
theorem entries_foldl_put (key : β → String) (value? : β → Option α) (xs : List β) (t : Table α)
    (hn : (xs.map key).Nodup) (ht : ∀ x ∈ xs, key x ∉ t.keys) :
    (xs.foldl (fun t x => t.put (key x) (value? x)) t).entries =
      t.entries ++ xs.filterMap (fun x => (value? x).map (fun v => (key x, v))) := by
  induction xs generalizing t with
  | nil => simp
  | cons x xs ih =>
    rw [List.map_cons, List.nodup_cons] at hn
    have hxs : ∀ y ∈ xs, key y ∉ (t.put (key x) (value? x)).keys := by
      intro y hy hk
      obtain hk | hk := mem_keys_put hk
      · exact ht y (List.mem_cons_of_mem _ hy) hk
      · exact hn.1 (hk ▸ List.mem_map_of_mem hy)
    rw [List.foldl_cons, ih _ hn.2 hxs, entries_put (ht x List.mem_cons_self), List.append_assoc,
      List.filterMap_cons]
    cases value? x <;> rfl

theorem entries_ofList {entries : List (String × α)} (h : (entries.map Prod.fst).Nodup) :
    (ofList entries).entries = entries := by
  have he := entries_foldl_put Prod.fst (fun e => some e.2) entries ∅ h
    (fun _ _ hm => List.not_mem_nil hm)
  simpa [put, ofList, EmptyCollection.emptyCollection, empty] using he

theorem ofList_entries (t : Table α) : ofList t.entries = t :=
  ext_entries (entries_ofList t.nodup)

theorem mem_of_mem_ofList {entries : List (String × α)} {e : String × α}
    (h : e ∈ (ofList entries).entries) : e ∈ entries := by
  induction entries using List.reverseRecOn with
  | nil => exact h
  | append_singleton entries d ih =>
    rw [ofList, List.foldl_append] at h
    obtain rfl | h := mem_setEntry h
    · simp
    · exact List.mem_append_left _ (ih h)

end DialogueFlow.Table
