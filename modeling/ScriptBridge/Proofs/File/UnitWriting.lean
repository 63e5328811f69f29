import Mathlib
import ScriptBridge.File.Output
import ScriptBridge.Proofs.File.Folder

/-! Writing units into a directory, seen as a map from names to entries. A write sets an entry and
a removal takes one away, so the loops over the units and over the stale names are followed entry
by entry. Proved: the units are in the directory with their texts, stale units are gone if that
was asked for, everything else is as before, and the summary counts what was done; a second run
finds all unchanged. Where the name of a unit is that of a directory, nothing is removed. -/

namespace ScriptBridge

namespace Node

variable {entries : List (String × Node)} {name : String}

/-- In a map a choice among entries shows in each look-up. -/
theorem lookup_filter_of_nodup (hn : (entries.map Prod.fst).Nodup) (q : String × Node → Bool)
    (name : String) :
    (entries.filter q).lookup name = (entries.lookup name).filter fun node => q (name, node) := by
  have hnodup : ((entries.filter q).map Prod.fst).Nodup :=
    hn.sublist (List.filter_sublist.map Prod.fst)
  refine Option.ext fun node => ?_
  rw [Option.filter_eq_some_iff]
  constructor
  · intro h
    obtain ⟨hmem, hq⟩ := List.mem_filter.1 (mem_of_lookup h)
    exact ⟨lookup_of_mem hn hmem, hq⟩
  · rintro ⟨h, hq⟩
    exact lookup_of_mem hnodup (List.mem_filter.2 ⟨mem_of_lookup h, hq⟩)

/-- An entry that is not chosen may be set or not. -/
theorem filter_setEntry {q : String × Node → Bool} (hq : ∀ node, q (name, node) = false)
    (new : Node) (entries : List (String × Node)) :
    (setEntry name new entries).filter q = entries.filter q := by
  induction entries with
  | nil => simp [setEntry, hq]
  | cons e es ih =>
    obtain ⟨key, old⟩ := e
    by_cases hk : key = name
    · subst hk
      simp [setEntry, hq]
    · simp [setEntry, hk, List.filter_cons, ih]

end Node

open Node

namespace Output

variable {d made : Disk} {p : Path} {place : List String} {entries : List (String × Node)}
  {units : List GeneratedUnit} {u : GeneratedUnit} {name : String}

/-! ### Units among entries -/

/-- The entries with the files of units. -/
def filed (units : List GeneratedUnit) (entries : List (String × Node)) : List (String × Node) :=
  units.foldl (fun es u => setEntry u.fileName (.file u.text) es) entries

/-- Whether the file of a unit holds its text already. -/
def holds (entries : List (String × Node)) (u : GeneratedUnit) : Bool :=
  match entries.lookup u.fileName with
  | some (.file content) => content == u.text
  | _ => false

/-- Whether the name of a unit is not the name of a directory. -/
def Free (entries : List (String × Node)) (u : GeneratedUnit) : Prop :=
  ∀ es, entries.lookup u.fileName ≠ some (.directory es)

theorem holds_iff : holds entries u ↔ entries.lookup u.fileName = some (.file u.text) := by
  unfold holds
  split
  · next content h => simp [h]
  · next h => exact ⟨nofun, fun he => absurd he (h u.text)⟩

theorem lookup_filed_of_notMem (h : name ∉ units.map GeneratedUnit.fileName) :
    (filed units entries).lookup name = entries.lookup name := by
  induction units generalizing entries with
  | nil => rfl
  | cons u us ih =>
    simp only [List.map_cons, List.mem_cons, not_or] at h
    rw [filed, List.foldl_cons, ← filed, ih h.2, lookup_setEntry, if_neg h.1]

theorem lookup_filed (hn : (units.map GeneratedUnit.fileName).Nodup) (hu : u ∈ units) :
    (filed units entries).lookup u.fileName = some (.file u.text) := by
  induction units generalizing entries with
  | nil => cases hu
  | cons v us ih =>
    obtain ⟨hv, hn⟩ := List.nodup_cons.1 hn
    rw [filed, List.foldl_cons, ← filed]
    rcases List.mem_cons.1 hu with rfl | hu
    · rw [lookup_filed_of_notMem hv, lookup_setEntry, if_pos rfl]
    · exact ih hn hu

theorem isSome_lookup_filed (h : (entries.lookup name).isSome) :
    ((filed units entries).lookup name).isSome := by
  induction units generalizing entries with
  | nil => exact h
  | cons u us ih =>
    have hset : ((setEntry u.fileName (.file u.text) entries).lookup name).isSome := by
      rw [lookup_setEntry]
      split
      · rfl
      · exact h
    exact ih hset

theorem filed_of_holds (h : ∀ u ∈ units, holds entries u) : filed units entries = entries := by
  induction units with
  | nil => rfl
  | cons u us ih =>
    rw [filed, List.foldl_cons, ← filed,
      setEntry_of_lookup (holds_iff.1 (h u List.mem_cons_self))]
    exact ih fun v hv => h v (List.mem_cons_of_mem u hv)

theorem filter_filed {q : String × Node → Bool}
    (hq : ∀ u ∈ units, ∀ node, q (u.fileName, node) = false) :
    (filed units entries).filter q = entries.filter q := by
  induction units generalizing entries with
  | nil => rfl
  | cons u us ih =>
    rw [filed, List.foldl_cons, ← filed, ih fun v hv => hq v (List.mem_cons_of_mem u hv),
      filter_setEntry (hq u List.mem_cons_self)]

/-! ### Writing -/

section Each

variable {α : Type} {act : Disk → OutputSummary → α → Output} {s : OutputSummary} {a : α}
  {o : Output}

theorem each_cons (h : act d s a = o) (ho : o.error = none) (as : List α) :
    each act d s (a :: as) = each act o.disk o.summary as := by
  rw [each, h, ho]
  rfl

theorem each_cons_error (h : act d s a = o) (ho : o.error.isSome) (as : List α) :
    each act d s (a :: as) = o := by
  rw [each, h]
  exact if_neg (by simpa [Option.isSome_iff_ne_none] using ho)

end Each

/-- The entry of a unit that is free can be set. -/
theorem folder_setEntry (hf : d.Folder p place entries) (hu : d.Admits p u.fileName)
    (hfree : Free entries u) :
    (d.set place (.directory (setEntry u.fileName (.file u.text) entries))).Folder p place
      (setEntry u.fileName (.file u.text) entries) := by
  have hkept : KeepsEntries entries (setEntry u.fileName (.file u.text) entries) := by
    intro name es hes
    have hname : name ≠ u.fileName := by
      rintro rfl
      exact hfree es hes
    rw [lookup_setEntry, if_neg hname, hes]
  refine hf.set hkept (nodup_setEntry hf.nodup _ _) (fun e he => ?_) fun e he => ?_
  · rcases mem_setEntry he with rfl | he
    · exact .inl rfl
    · exact hf.kinds e he
  · rcases mem_setEntry he with rfl | he
    · exact hu
    · exact hf.admits e he

/-- The summary after one more unit. -/
def counted (unchanged : Bool) (s : OutputSummary) : OutputSummary :=
  if unchanged then { s with unchanged := s.unchanged + 1 } else { s with written := s.written + 1 }

theorem writeUnit_free (hf : d.Folder p place entries) (hu : d.Admits p u.fileName)
    (hfree : Free entries u) (s : OutputSummary) :
    writeUnit p d s u =
      { disk := d.set place (.directory (setEntry u.fileName (.file u.text) entries))
        summary := counted (holds entries u) s } := by
  rw [writeUnit, hf.node?_join hu]
  change (if holds entries u then _ else _) = _
  by_cases hh : holds entries u
  · rw [if_pos hh, counted, if_pos hh, setEntry_of_lookup (holds_iff.1 hh), hf.set_self]
  · rw [if_neg hh, counted, if_neg hh, hf.write_join hu hfree]

theorem writeUnit_directory (hf : d.Folder p place entries) (hu : d.Admits p u.fileName)
    {es : List (String × Node)} (h : entries.lookup u.fileName = some (.directory es))
    (s : OutputSummary) :
    writeUnit p d s u =
      { disk := d, summary := s, error := some (.cannotOpen (p.join ⟨u.fileName⟩)) } := by
  rw [writeUnit, hf.node?_join hu, h]
  dsimp only
  rw [if_neg (by decide), hf.write_join_directory hu h]

section Later

variable {us : List GeneratedUnit} (hu : u.fileName ∉ us.map GeneratedUnit.fileName)

include hu

/-- For the other units it makes no difference that a unit has been written. -/
theorem lookup_later (node : Node) {v : GeneratedUnit} (hv : v ∈ us) :
    (setEntry u.fileName node entries).lookup v.fileName = entries.lookup v.fileName := by
  have hne : v.fileName ≠ u.fileName := fun he => hu (he ▸ List.mem_map_of_mem hv)
  rw [lookup_setEntry, if_neg hne]

theorem free_later (node : Node) (hfree : ∀ v ∈ us, Free entries v) :
    ∀ v ∈ us, Free (setEntry u.fileName node entries) v := by
  intro v hv es
  rw [lookup_later hu node hv]
  exact hfree v hv es

theorem holds_later (node : Node) {v : GeneratedUnit} (hv : v ∈ us) :
    holds (setEntry u.fileName node entries) v = holds entries v := by
  rw [holds, holds, lookup_later hu node hv]

end Later

/-- The summary after units have been written of which some were there already. -/
def countedAll (entries : List (String × Node)) (units : List GeneratedUnit) (s : OutputSummary) :
    OutputSummary :=
  { s with
    written := s.written + units.countP fun u => !holds entries u
    unchanged := s.unchanged + units.countP (holds entries) }

theorem countedAll_cons {us : List GeneratedUnit} (hu : u.fileName ∉ us.map GeneratedUnit.fileName)
    (node : Node) (s : OutputSummary) :
    countedAll (setEntry u.fileName node entries) us (counted (holds entries u) s) =
      countedAll entries (u :: us) s := by
  have hsame : us.countP (holds (setEntry u.fileName node entries)) = us.countP (holds entries) :=
    List.countP_congr fun v hv => by rw [holds_later hu node hv]
  have hother : us.countP (fun v => !holds (setEntry u.fileName node entries) v) =
      us.countP fun v => !holds entries v :=
    List.countP_congr fun v hv => by rw [holds_later hu node hv]
  rw [countedAll, countedAll, hsame, hother]
  by_cases hh : holds entries u
  · simp [counted, hh, Nat.add_assoc, Nat.add_comm 1]
  · simp [counted, hh, Nat.add_assoc, Nat.add_comm 1]

/-- What writing leaves behind if no directory is in the way. -/
theorem each_writeUnit_free (hf : d.Folder p place entries)
    (hu : ∀ u ∈ units, d.Admits p u.fileName) (hn : (units.map GeneratedUnit.fileName).Nodup)
    (hfree : ∀ u ∈ units, Free entries u) (s : OutputSummary) :
    each (writeUnit p) d s units =
        { disk := d.set place (.directory (filed units entries))
          summary := countedAll entries units s } ∧
      (d.set place (.directory (filed units entries))).Folder p place (filed units entries) := by
  induction units generalizing d entries s with
  | nil =>
    rw [show filed [] entries = entries from rfl, hf.set_self]
    exact ⟨rfl, hf⟩
  | cons u us ih =>
    obtain ⟨hfu, hfree⟩ := List.forall_mem_cons.1 hfree
    obtain ⟨hadmits, hu⟩ := List.forall_mem_cons.1 hu
    obtain ⟨hfresh, hn⟩ := List.nodup_cons.1 hn
    have hnext := folder_setEntry hf hadmits hfu
    have hlater := ih hnext (fun v hv => (hu v hv).set _ _) hn (free_later hfresh _ hfree)
      (counted (holds entries u) s)
    rw [hf.set_set, countedAll_cons hfresh] at hlater
    rw [each_cons (writeUnit_free hf hadmits hfu s) rfl]
    exact hlater

/-- Where a directory is in the way, writing stops in front of it. -/
theorem each_writeUnit_blocked (hf : d.Folder p place entries)
    (hu : ∀ u ∈ units, d.Admits p u.fileName) (hn : (units.map GeneratedUnit.fileName).Nodup)
    (hblocked : ∃ u ∈ units, ∃ es, entries.lookup u.fileName = some (.directory es))
    (s : OutputSummary) :
    ∃ us v vs, units = us ++ v :: vs ∧
      each (writeUnit p) d s units =
        { disk := d.set place (.directory (filed us entries))
          summary := countedAll entries us s
          error := some (.cannotOpen (p.join ⟨v.fileName⟩)) } := by
  induction units generalizing d entries s with
  | nil => exact absurd hblocked (by simp)
  | cons u us ih =>
    obtain ⟨hadmits, hu⟩ := List.forall_mem_cons.1 hu
    obtain ⟨hfresh, hn⟩ := List.nodup_cons.1 hn
    by_cases hfu : Free entries u
    · obtain ⟨v, hv, es, hes⟩ := hblocked
      have hv : v ∈ us := (List.mem_cons.1 hv).resolve_left fun he => hfu es (he ▸ hes)
      have hnext := folder_setEntry hf hadmits hfu
      obtain ⟨ws, v, vs, rfl, hlater⟩ := ih hnext (fun v hv => (hu v hv).set _ _) hn
        ⟨v, hv, es, by rw [lookup_later hfresh _ hv, hes]⟩ (counted (holds entries u) s)
      have hfresh' : u.fileName ∉ ws.map GeneratedUnit.fileName := fun hmem =>
        hfresh (by rw [List.map_append]; exact List.mem_append_left _ hmem)
      rw [hf.set_set, countedAll_cons hfresh'] at hlater
      exact ⟨u :: ws, v, vs, rfl, by
        rw [each_cons (writeUnit_free hf hadmits hfu s) rfl]
        exact hlater⟩
    · obtain ⟨es, hes⟩ : ∃ es, entries.lookup u.fileName = some (.directory es) := by
        simpa [Free] using hfu
      refine ⟨[], u, us, rfl, ?_⟩
      rw [show filed [] entries = entries from rfl, hf.set_self,
        each_cons_error (writeUnit_directory hf hadmits hes s) rfl]
      rfl

/-! ### Removing -/

/-- The entries without those of some names. -/
def without (names : List String) (entries : List (String × Node)) : List (String × Node) :=
  entries.filter fun e => !names.contains e.1

theorem without_nil (entries : List (String × Node)) : without [] entries = entries :=
  List.filter_eq_self.2 fun _ _ => rfl

theorem without_cons (n : String) (ns : List String) (entries : List (String × Node)) :
    without (n :: ns) entries = without ns (entries.filter fun e => e.1 != n) := by
  rw [without, without, List.filter_filter]
  refine List.filter_congr fun e _ => ?_
  rw [List.contains_cons, Bool.not_or, Bool.and_comm]
  rfl

theorem lookup_without_of_ne {n m : String} (h : m ≠ n) :
    (entries.filter fun e => e.1 != n).lookup m = entries.lookup m := by
  rw [lookup_filter fun key => key != n, if_pos (bne_iff_ne.2 h)]

/-- The entry of a file can be taken away. -/
theorem folder_remove (hf : d.Folder p place entries) {n text : String}
    (h : entries.lookup n = some (.file text)) :
    (d.set place (.directory (entries.filter fun e => e.1 != n))).Folder p place
      (entries.filter fun e => e.1 != n) := by
  have hkept : KeepsEntries entries (entries.filter fun e => e.1 != n) := by
    intro name es hes
    have hne : name ≠ n := by
      rintro rfl
      rw [h] at hes
      cases hes
    rw [lookup_without_of_ne hne, hes]
  have hmem {e : String × Node} (he : e ∈ entries.filter fun e => e.1 != n) : e ∈ entries :=
    (List.mem_filter.1 he).1
  exact hf.set hkept (hf.nodup.sublist (List.filter_sublist.map _)) (fun e he => hf.kinds e (hmem he))
    fun e he => hf.admits e (hmem he)

theorem removeUnit_file (hf : d.Folder p place entries) (hn : d.Admits p name) {text : String}
    (h : entries.lookup name = some (.file text)) (s : OutputSummary) :
    removeUnit p d s name =
      { disk := d.set place (.directory (entries.filter fun e => e.1 != name))
        summary := { s with removed := s.removed + 1 } } := by
  unfold removeUnit
  dsimp only
  rw [hf.remove_join hn h]

theorem each_removeUnit (hf : d.Folder p place entries) {names : List String}
    (hn : names.Nodup) (hfile : ∀ n ∈ names, ∃ text, entries.lookup n = some (.file text))
    (s : OutputSummary) :
    each (removeUnit p) d s names =
        { disk := d.set place (.directory (without names entries))
          summary := { s with removed := s.removed + names.length } } ∧
      (d.set place (.directory (without names entries))).Folder p place (without names entries) := by
  induction names generalizing d entries s with
  | nil =>
    rw [without_nil, hf.set_self]
    exact ⟨rfl, hf⟩
  | cons n ns ih =>
    obtain ⟨⟨text, htext⟩, hfile⟩ := List.forall_mem_cons.1 hfile
    obtain ⟨hfresh, hn⟩ := List.nodup_cons.1 hn
    have hadmits : d.Admits p n := hf.admits _ (mem_of_lookup htext)
    have hfile' : ∀ m ∈ ns, ∃ text,
        (entries.filter fun e => e.1 != n).lookup m = some (.file text) := by
      intro m hm
      have hne : m ≠ n := fun he => hfresh (he ▸ hm)
      rw [lookup_without_of_ne hne]
      exact hfile m hm
    have hlater := ih (folder_remove hf htext) hn hfile' { s with removed := s.removed + 1 }
    rw [hf.set_set, ← without_cons] at hlater
    have hcount : s.removed + (n :: ns).length = s.removed + 1 + ns.length := by
      rw [List.length_cons]
      omega
    rw [each_cons (removeUnit_file hf hadmits htext s) rfl, hcount]
    exact hlater

/-! ### Stale units -/

/-- The entries when everything is done. -/
def settled (clean : Bool) (units : List GeneratedUnit) (entries : List (String × Node)) :
    List (String × Node) :=
  (filed units entries).filter fun e => !(clean && isStale (units.map GeneratedUnit.fileName) e)

theorem isStale_of_mem {keep : List String} (h : name ∈ keep) (node : Node) :
    isStale keep (name, node) = false := by
  simp [isStale, h]

theorem filter_isStale_filed :
    (filed units entries).filter (isStale (units.map GeneratedUnit.fileName)) =
      entries.filter (isStale (units.map GeneratedUnit.fileName)) :=
  filter_filed fun _ hu => isStale_of_mem (List.mem_map_of_mem hu)

theorem staleIn_eq (hf : d.Folder p place entries) (keep : List String) :
    staleIn d p keep = (entries.filter (isStale keep)).map Prod.fst := by
  obtain ⟨t, ht, -, hentries⟩ := hf.leads
  simp only [staleIn, Disk.node?, ht, Except.toOption, Option.map_some, hentries]

theorem exists_file_of_stale {keep : List String} (hn : (entries.map Prod.fst).Nodup)
    (h : name ∈ (entries.filter (isStale keep)).map Prod.fst) :
    ∃ text, entries.lookup name = some (.file text) := by
  obtain ⟨⟨key, node⟩, he, rfl⟩ := List.mem_map.1 h
  obtain ⟨hmem, hstale⟩ := List.mem_filter.1 he
  simp only [isStale, Bool.and_eq_true] at hstale
  cases node with
  | file text => exact ⟨text, lookup_of_mem hn hmem⟩
  | device | directory => cases hstale.1.1

/-- Without the names of stale entries are all but the stale entries. -/
theorem without_stale {keep : List String} (hn : (entries.map Prod.fst).Nodup) :
    without ((entries.filter (isStale keep)).map Prod.fst) entries =
      entries.filter fun e => !isStale keep e := by
  refine List.filter_congr fun e he => congrArg _ ?_
  rw [Bool.eq_iff_iff, List.contains_iff_mem]
  constructor
  · intro h
    obtain ⟨e', he', hkey⟩ := List.mem_map.1 h
    obtain ⟨hmem, hstale⟩ := List.mem_filter.1 he'
    have hnode : some e'.2 = some e.2 := by
      rw [← lookup_of_mem hn hmem, hkey, lookup_of_mem hn he]
    rw [show e = e' from Prod.ext hkey.symm (Option.some.inj hnode).symm]
    exact hstale
  · exact fun h => List.mem_map_of_mem (List.mem_filter.2 ⟨he, h⟩)

/-- The summary when everything is done. -/
def tallied (clean : Bool) (units : List GeneratedUnit) (entries : List (String × Node))
    (s : OutputSummary) : OutputSummary :=
  { countedAll entries units s with
    removed := s.removed +
      if clean then entries.countP (isStale (units.map GeneratedUnit.fileName)) else 0 }

/-! ### A whole call -/

section Call

variable (hmade : d.makeDirectories p = (made, none)) (hf : made.Folder p place entries)
  (hu : ∀ u ∈ units, made.Admits p u.fileName) (hn : (units.map GeneratedUnit.fileName).Nodup)

include hmade hf hu hn

theorem writeUnits_free (hfree : ∀ u ∈ units, Free entries u) (clean : Bool) (s : OutputSummary) :
    writeUnits d p units clean s =
        { disk := made.set place (.directory (settled clean units entries))
          summary := tallied clean units entries s } ∧
      (made.set place (.directory (settled clean units entries))).Folder p place
        (settled clean units entries) := by
  obtain ⟨hwritten, hfiled⟩ := each_writeUnit_free hf hu hn hfree s
  rw [writeUnits, hmade]
  dsimp only
  rw [hwritten]
  cases clean with
  | false =>
    have hall : settled false units entries = filed units entries :=
      List.filter_eq_self.2 fun _ _ => rfl
    rw [hall]
    exact ⟨rfl, hfiled⟩
  | true =>
    have hnames : (((filed units entries).filter
        (isStale (units.map GeneratedUnit.fileName))).map Prod.fst).Nodup :=
      hfiled.nodup.sublist (List.filter_sublist.map _)
    obtain ⟨hremoved, hleft⟩ := each_removeUnit hfiled hnames
      (fun _ => exists_file_of_stale hfiled.nodup) (countedAll entries units s)
    rw [hf.set_set, without_stale hfiled.nodup, List.length_map] at hremoved
    rw [hf.set_set, without_stale hfiled.nodup] at hleft
    refine ⟨?_, hleft⟩
    change each (removeUnit p) _ _ (staleIn _ p _) = _
    rw [staleIn_eq hfiled, hremoved, filter_isStale_filed, ← List.countP_eq_length_filter]
    rfl

theorem writeUnits_blocked (hblocked : ∃ u ∈ units, ¬Free entries u) (clean : Bool)
    (s : OutputSummary) :
    ∃ us v vs, units = us ++ v :: vs ∧
      writeUnits d p units clean s =
        { disk := made.set place (.directory (filed us entries))
          summary := countedAll entries us s
          error := some (.cannotOpen (p.join ⟨v.fileName⟩)) } := by
  obtain ⟨u, hmem, hdirectory⟩ := hblocked
  obtain ⟨us, v, vs, hsplit, hwritten⟩ := each_writeUnit_blocked hf hu hn
    ⟨u, hmem, by simpa [Free] using hdirectory⟩ s
  refine ⟨us, v, vs, hsplit, ?_⟩
  rw [writeUnits, hmade]
  dsimp only
  rw [hwritten]
  exact if_neg (by simp)

end Call

/-! ### What a call leaves behind -/

/-- What is true of the entries and of the summary after every unit has been written. -/
structure Complete (entries entries' : List (String × Node)) (units : List GeneratedUnit)
    (clean : Bool) (s s' : OutputSummary) : Prop where
  texts : ∀ u ∈ units, entries'.lookup u.fileName = some (.file u.text)
  others : ∀ name ∉ units.map GeneratedUnit.fileName,
    entries'.lookup name = (entries.lookup name).filter fun node =>
      !(clean && node.isFile && hasSuffix Generation.fileSuffix name)
  total : s'.written + s'.unchanged = s.written + s.unchanged + units.length
  unchanged : s'.unchanged = s.unchanged + units.countP (holds entries)
  removed : s'.removed = s.removed + entries.countP fun e => (entries'.lookup e.1).isNone

/-- What is true of them after a directory has been in the way. -/
structure Halted (entries entries' : List (String × Node)) (units : List GeneratedUnit)
    (s s' : OutputSummary) : Prop where
  kept : ∀ name, (entries.lookup name).isSome → (entries'.lookup name).isSome
  others : ∀ name ∉ units.map GeneratedUnit.fileName, entries'.lookup name = entries.lookup name
  removed : s'.removed = s.removed

section Settled

variable {clean : Bool} (hn : (entries.map Prod.fst).Nodup)

include hn

theorem nodup_filed : ((filed units entries).map Prod.fst).Nodup := by
  induction units generalizing entries with
  | nil => exact hn
  | cons u us ih => exact ih (nodup_setEntry hn _ _)

theorem lookup_settled (hu : (units.map GeneratedUnit.fileName).Nodup) (hmem : u ∈ units) :
    (settled clean units entries).lookup u.fileName = some (.file u.text) := by
  rw [settled, lookup_filter_of_nodup (nodup_filed hn), lookup_filed hu hmem]
  simp [isStale_of_mem (List.mem_map_of_mem hmem)]

theorem lookup_settled_of_notMem (hname : name ∉ units.map GeneratedUnit.fileName) :
    (settled clean units entries).lookup name = (entries.lookup name).filter fun node =>
      !(clean && node.isFile && hasSuffix Generation.fileSuffix name) := by
  have hkeep : (units.map GeneratedUnit.fileName).contains name = false := by
    simpa using hname
  rw [settled, lookup_filter_of_nodup (nodup_filed hn), lookup_filed_of_notMem hname]
  simp only [isStale, hkeep, Bool.not_false, Bool.and_true, Bool.and_assoc]

/-- The entries that are gone are the stale ones. -/
theorem countP_isNone_settled (hu : (units.map GeneratedUnit.fileName).Nodup) :
    (entries.countP fun e => ((settled clean units entries).lookup e.1).isNone) =
      if clean then entries.countP (isStale (units.map GeneratedUnit.fileName)) else 0 := by
  have hgone : ∀ e ∈ entries, ((settled clean units entries).lookup e.1).isNone =
      (clean && isStale (units.map GeneratedUnit.fileName) e) := by
    intro e he
    by_cases hmem : e.1 ∈ units.map GeneratedUnit.fileName
    · obtain ⟨u, hu', hname⟩ := List.mem_map.1 hmem
      rw [← hname, lookup_settled hn hu hu', isStale_of_mem hmem e.2]
      simp
    · rw [lookup_settled_of_notMem hn hmem, lookup_of_mem hn he]
      have hkeep : (units.map GeneratedUnit.fileName).contains e.1 = false := by simpa using hmem
      rw [isStale, hkeep, Bool.not_false, Bool.and_true, ← Bool.and_assoc, Option.filter_some]
      cases clean && e.2.isFile && hasSuffix Generation.fileSuffix e.1 <;> rfl
  rw [List.countP_congr fun e he => by rw [hgone e he]]
  cases clean <;> simp

end Settled

/-- A settled directory holds all units, and no stale ones if those are taken away. -/
theorem settled_settled (hn : (entries.map Prod.fst).Nodup)
    (hu : (units.map GeneratedUnit.fileName).Nodup) (clean : Bool) (s : OutputSummary) :
    settled clean units (settled clean units entries) = settled clean units entries ∧
      tallied clean units (settled clean units entries) s =
        { s with unchanged := s.unchanged + units.length } := by
  have hholds : ∀ u ∈ units, holds (settled clean units entries) u :=
    fun u hmem => holds_iff.2 (lookup_settled hn hu hmem)
  have hall : units.countP (holds (settled clean units entries)) = units.length :=
    List.countP_eq_length.2 hholds
  have hnone : units.countP (fun u => !holds (settled clean units entries) u) = 0 :=
    List.countP_eq_zero.2 fun u hmem => by simp [hholds u hmem]
  have hgone : (if clean then
      (settled clean units entries).countP (isStale (units.map GeneratedUnit.fileName)) else 0)
        = 0 := by
    cases clean with
    | false => rfl
    | true =>
      rw [if_pos rfl, List.countP_eq_zero]
      intro e he
      simpa [settled] using (List.mem_filter.1 he).2
  constructor
  · rw [settled, filed_of_holds hholds, settled, List.filter_filter]
    simp
  · rw [tallied, countedAll, hall, hnone, hgone]
    rfl

theorem complete_settled (hn : (entries.map Prod.fst).Nodup)
    (hu : (units.map GeneratedUnit.fileName).Nodup) (clean : Bool) (s : OutputSummary) :
    Complete entries (settled clean units entries) units clean s (tallied clean units entries s)
    where
  texts _ hmem := lookup_settled hn hu hmem
  others _ hname := lookup_settled_of_notMem hn hname
  total := by
    have hsplit : units.length = units.countP (holds entries) +
        units.countP fun u => !holds entries u := by
      rw [List.length_eq_countP_add_countP (holds entries)]
      simp
    simp only [tallied, countedAll]
    omega
  unchanged := rfl
  removed := by rw [countP_isNone_settled hn hu, tallied]

theorem halted_filed {us vs : List GeneratedUnit} {v : GeneratedUnit} (s : OutputSummary) :
    Halted entries (filed us entries) (us ++ v :: vs) s (countedAll entries us s) where
  kept _ := isSome_lookup_filed
  others name hname := by
    rw [List.map_append, List.mem_append, not_or] at hname
    exact lookup_filed_of_notMem hname.1
  removed := rfl

/-- What writing units does to a directory. If no directory has the name of a unit, it leaves the
units there and the rest as it was, or takes the stale units away, and counts what it did; the
same call once more changes nothing. Otherwise it fails, and nothing has been removed. -/
theorem writeUnits_folder (hmade : d.makeDirectories p = (made, none))
    (hf : made.Folder p place entries) (hu : ∀ u ∈ units, made.Admits p u.fileName)
    (hn : (units.map GeneratedUnit.fileName).Nodup) (clean : Bool) (s : OutputSummary) :
    let o := writeUnits d p units clean s
    ((∀ u ∈ units, Free entries u) →
      o.error = none ∧
      (∃ entries', o.disk = made.set place (.directory entries') ∧
        Complete entries entries' units clean s o.summary) ∧
      ∀ s', writeUnits o.disk p units clean s' =
        { disk := o.disk, summary := { s' with unchanged := s'.unchanged + units.length } }) ∧
    ((∃ u ∈ units, ¬Free entries u) →
      o.error.isSome ∧
      ∃ entries', o.disk = made.set place (.directory entries') ∧
        Halted entries entries' units s o.summary) := by
  intro o
  constructor
  · intro hfree
    obtain ⟨ho, hsettled⟩ := writeUnits_free hmade hf hu hn hfree clean s
    replace ho : o = _ := ho
    rw [ho]
    refine ⟨rfl, ⟨_, rfl, complete_settled hf.nodup hn clean s⟩, fun s' => ?_⟩
    have hfree' : ∀ u ∈ units, Free (settled clean units entries) u := by
      intro u hmem es
      rw [lookup_settled hf.nodup hn hmem]
      nofun
    obtain ⟨hagain, -⟩ := writeUnits_free hsettled.makeDirectories hsettled
      (fun u hmem => (hu u hmem).set _ _) hn hfree' clean s'
    obtain ⟨hsame, hcount⟩ := settled_settled hf.nodup hn clean s'
    rw [hf.set_set, hsame, hcount] at hagain
    exact hagain
  · intro hblocked
    obtain ⟨us, v, vs, hsplit, ho⟩ := writeUnits_blocked hmade hf hu hn hblocked clean s
    replace ho : o = _ := ho
    rw [ho, hsplit]
    exact ⟨rfl, _, rfl, halted_filed s⟩

/-- What an earlier run and a person have left in a directory. -/
def earlier : List (String × Node) :=
  [("Hero.g.cs", .file "Hero"), ("Gone.g.cs", .file ""), ("Notes.cs", .file ""),
    ("Old.g.cs", .directory [])]

def project : Disk := { root := .directory [("out", .directory earlier)] }

theorem folder_project : project.Folder ⟨"out"⟩ ["out"] earlier where
  standing := ⟨[], rfl, rfl⟩
  visible := by decide +kernel
  leads := ⟨[("out", .directory earlier)], by cbv, rfl, rfl⟩
  nodup := by decide +kernel
  kinds := by decide +kernel
  admits := by decide +kernel

theorem writeUnits_folder_project :
    let units : List GeneratedUnit :=
      [⟨.bridge, "Hero", "Hero.g.cs", "Hero"⟩, ⟨.proxy, "Node", "NodeProxy.g.cs", "Node"⟩]
    let o := writeUnits project ⟨"out"⟩ units true {}
    (o.error = none ∧ ∃ entries', o.disk = project.set ["out"] (.directory entries') ∧
      Complete earlier entries' units true {} o.summary) ∧
    let taken : List GeneratedUnit := [⟨.bridge, "Old", "Old.g.cs", "Old"⟩]
    (writeUnits project ⟨"out"⟩ taken true {}).error.isSome := by
  intro units o
  have hf := folder_project
  have hu : ∀ u ∈ units, project.Admits ⟨"out"⟩ u.fileName := by decide +kernel
  have hfree : ∀ u ∈ units, Free earlier u := by
    simp [units, Free, earlier, lookup_cons_eq]
  obtain ⟨herror, hleft, -⟩ :=
    (writeUnits_folder hf.makeDirectories hf hu (by decide +kernel) true {}).1 hfree
  refine ⟨⟨herror, hleft⟩, ?_⟩
  intro taken
  have hu : ∀ u ∈ taken, project.Admits ⟨"out"⟩ u.fileName := by decide +kernel
  have hdirectory : ∃ u ∈ taken, ¬Free earlier u :=
    ⟨_, List.mem_singleton.2 rfl, fun h => h [] (by simp [earlier, lookup_cons_eq])⟩
  exact ((writeUnits_folder hf.makeDirectories hf hu (by decide +kernel) true {}).2 hdirectory).1

end Output

end ScriptBridge
