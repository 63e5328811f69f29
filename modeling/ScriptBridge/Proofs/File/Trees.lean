import ScriptBridge.File.Disk

/-! Trees of entries. An entry is looked up by the first of its name, and a node is found, and put,
name by name. Proved: putting a node shows at its place and, but for the way to it, nowhere else;
where only the entries of one directory change, and none of its own directories, every directory
of the tree stays one. -/

namespace ScriptBridge.Node

/-! ### Entries -/

section Entries

variable {name other : String} {node new : Node} {entries : List (String × Node)}

theorem lookup_cons_eq (e : String × Node) (entries : List (String × Node)) (name : String) :
    (e :: entries).lookup name = if name = e.1 then some e.2 else entries.lookup name := by
  obtain ⟨key, node⟩ := e
  by_cases h : name = key
  · simp [h]
  · have hne : (name == key) = false := beq_false_of_ne h
    simp [List.lookup_cons, hne, h]

theorem lookup_setEntry (name other : String) (new : Node) (entries : List (String × Node)) :
    (setEntry name new entries).lookup other =
      if other = name then some new else entries.lookup other := by
  induction entries with
  | nil => simp [setEntry, lookup_cons_eq]
  | cons e es ih =>
    by_cases hk : e.1 = name
    · subst hk
      by_cases h : other = e.1 <;> simp [setEntry, lookup_cons_eq, h]
    · by_cases h : other = e.1
      · have hne : other ≠ name := fun he => hk (h.symm.trans he)
        simp [setEntry, lookup_cons_eq, hk, h]
      · simp [setEntry, lookup_cons_eq, hk, h, ih]

theorem setEntry_setEntry (name : String) (new old : Node) (entries : List (String × Node)) :
    setEntry name new (setEntry name old entries) = setEntry name new entries := by
  induction entries with
  | nil => simp [setEntry]
  | cons e es ih => by_cases hk : e.1 = name <;> simp [setEntry, hk, ih]

theorem setEntry_of_lookup (h : entries.lookup name = some node) :
    setEntry name node entries = entries := by
  induction entries with
  | nil => cases h
  | cons e es ih =>
    rw [lookup_cons_eq] at h
    by_cases hk : name = e.1
    · rw [if_pos hk] at h
      simp [setEntry, hk, ← Option.some.inj h]
    · rw [if_neg hk] at h
      simp [setEntry, Ne.symm hk, ih h]

/-- Keys of a list are its own after an entry is set, or the key of that entry. -/
theorem mem_setEntry {e : String × Node} (h : e ∈ setEntry name new entries) :
    e = (name, new) ∨ e ∈ entries := by
  induction entries with
  | nil => exact .inl (List.mem_singleton.1 h)
  | cons e' es ih =>
    rw [setEntry] at h
    split at h
    · exact (List.mem_cons.1 h).imp_right (List.mem_cons_of_mem _)
    · rcases List.mem_cons.1 h with rfl | h
      · exact .inr List.mem_cons_self
      · exact (ih h).imp_right (List.mem_cons_of_mem _)

theorem nodup_setEntry (h : (entries.map Prod.fst).Nodup) (name : String) (new : Node) :
    ((setEntry name new entries).map Prod.fst).Nodup := by
  induction entries with
  | nil => simp [setEntry]
  | cons e es ih =>
    obtain ⟨hmem, hnodup⟩ := List.nodup_cons.1 h
    rw [setEntry]
    split
    · next hk =>
      rw [beq_iff_eq] at hk
      simpa [← hk] using h
    · next hk =>
      refine List.nodup_cons.2 ⟨fun hin => ?_, ih hnodup⟩
      obtain ⟨e', he', hkey⟩ := List.mem_map.1 hin
      rcases mem_setEntry he' with rfl | he'
      · exact hk (beq_iff_eq.2 hkey.symm)
      · exact hmem (hkey ▸ List.mem_map_of_mem he')

theorem mem_of_lookup (h : entries.lookup name = some node) : (name, node) ∈ entries := by
  induction entries with
  | nil => cases h
  | cons e es ih =>
    rw [lookup_cons_eq] at h
    by_cases hk : name = e.1
    · rw [if_pos hk] at h
      rw [hk, ← Option.some.inj h]
      exact List.mem_cons_self
    · rw [if_neg hk] at h
      exact List.mem_cons_of_mem _ (ih h)

theorem lookup_of_mem (hn : (entries.map Prod.fst).Nodup) (h : (name, node) ∈ entries) :
    entries.lookup name = some node := by
  induction entries with
  | nil => cases h
  | cons e es ih =>
    obtain ⟨hmem, hnodup⟩ := List.nodup_cons.1 hn
    rcases List.mem_cons.1 h with rfl | h
    · exact List.lookup_cons_self
    · have hne : name ≠ e.1 := fun he => hmem (he ▸ List.mem_map_of_mem h)
      rw [lookup_cons_eq, if_neg hne]
      exact ih hnodup h

/-- A choice by name shows in each look-up. -/
theorem lookup_filter (keep : String → Bool) (entries : List (String × Node)) (name : String) :
    (entries.filter fun e => keep e.1).lookup name =
      if keep name then entries.lookup name else none := by
  induction entries with
  | nil => simp
  | cons e es ih =>
    obtain ⟨key, node⟩ := e
    by_cases hk : name = key
    · subst hk
      by_cases hkeep : keep name <;> simp [hkeep, ih]
    · by_cases hkeep : keep key <;> simp [hkeep, lookup_cons_eq, hk, ih]

end Entries

/-! ### Places -/

section Places

variable {root node new : Node} {place : List String} {entries entries' : List (String × Node)}

theorem find?_append (front back : List String) (root : Node) :
    root.find? (front ++ back) = (root.find? front).bind (find? back) := by
  induction front generalizing root with
  | nil => simp [find?]
  | cons name front ih =>
    cases root with
    | file | device => simp [find?]
    | directory es => cases h : es.lookup name <;> simp [find?, h, ih]

theorem find?_cons_eq_some_iff {name : String} {names : List String} :
    root.find? (name :: names) = some node ↔
      ∃ es inner, root = directory es ∧ es.lookup name = some inner ∧
        inner.find? names = some node := by
  cases root with
  | file | device => simp [find?]
  | directory es => simp [find?, Option.bind_eq_some_iff]

/-- Induction on the way to a node: at its end, and at a directory whose entry leads on. -/
@[elab_as_elim]
theorem find?_induction {P : ∀ inner names, find? names inner = some node → Prop}
    (here : P node [] rfl)
    (below : ∀ {name : String} {names : List String} {es : List (String × Node)} {inner : Node}
      (hinner : es.lookup name = some inner) (h : inner.find? names = some node),
      P inner names h → P (directory es) (name :: names)
        (find?_cons_eq_some_iff.2 ⟨es, inner, rfl, hinner, h⟩))
    (h : root.find? place = some node) : P root place h := by
  induction place generalizing root with
  | nil =>
    obtain rfl : root = node := by simpa [find?] using h
    exact here
  | cons name place ih =>
    obtain ⟨es, inner, rfl, hinner, hnode⟩ := find?_cons_eq_some_iff.1 h
    exact below hinner hnode (ih hnode)

theorem put_append (h : root.find? place = some node) (more : List String) (new : Node) :
    put (place ++ more) new root = put place (put more new node) root := by
  induction h using find?_induction with
  | here => rfl
  | below hinner _ ih => simp [put, hinner, ih]

theorem put_put (h : root.find? place = some node) (new old : Node) :
    put place new (put place old root) = put place new root := by
  induction h using find?_induction with
  | here => rfl
  | below hinner _ ih => simp [put, hinner, lookup_setEntry, setEntry_setEntry, ih]

theorem put_self (h : root.find? place = some node) : put place node root = root := by
  induction h using find?_induction with
  | here => rfl
  | below hinner _ ih => simp [put, hinner, ih, setEntry_of_lookup]

theorem find?_put (h : root.find? place = some node) (new : Node) :
    (put place new root).find? place = some new := by
  induction h using find?_induction with
  | here => rfl
  | below hinner _ ih => simp [put, find?, hinner, lookup_setEntry, ih]

/-- Each directory of the first tree is one of the second. -/
def KeepsDirectories (root root' : Node) : Prop :=
  ∀ names es, root.find? names = some (directory es) → ∃ es', root'.find? names = some (directory es')

/-- The directories among the first entries are among the second. -/
def KeepsEntries (entries entries' : List (String × Node)) : Prop :=
  ∀ name es, entries.lookup name = some (directory es) → entries'.lookup name = some (directory es)

/-- Above a directory there are directories only. -/
theorem isDirectory_of_find? {names : List String} {es : List (String × Node)}
    (h : node.find? names = some (directory es)) : ∃ inner, node = directory inner := by
  cases names with
  | nil => exact ⟨es, by simpa [find?] using h⟩
  | cons name names =>
    obtain ⟨inner, -, rfl, -⟩ := find?_cons_eq_some_iff.1 h
    exact ⟨inner, rfl⟩

theorem keepsDirectories_put (h : root.find? place = some (directory entries))
    (hk : KeepsEntries entries entries') :
    KeepsDirectories root (put place (directory entries') root) := by
  intro names es hes
  induction h using find?_induction generalizing names with
  | here =>
    cases names with
    | nil => exact ⟨entries', by simp [put, find?]⟩
    | cons name names =>
      obtain ⟨inner, hinner, hes⟩ := Option.bind_eq_some_iff.1 hes
      obtain ⟨below, rfl⟩ := isDirectory_of_find? hes
      exact ⟨es, by simp [put, find?, hk name below hinner, hes]⟩
  | @below first place rs inner hinner _ ih =>
    cases names with
    | nil => exact ⟨_, by rw [put, find?]⟩
    | cons name names =>
      obtain ⟨node, hnode, hes⟩ := Option.bind_eq_some_iff.1 hes
      by_cases hname : name = first
      · subst hname
        obtain rfl : inner = node := Option.some.inj (hinner.symm.trans hnode)
        simpa [put, find?, hinner, lookup_setEntry] using ih names hes
      · exact ⟨es, by simp [put, find?, lookup_setEntry, hname, hnode, hes]⟩

end Places

end ScriptBridge.Node
