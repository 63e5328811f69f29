import Mathlib.Tactic.SplitIfs
import ScriptBridge.Proofs.File.Paths
import ScriptBridge.Proofs.File.Trees

/-! One directory of a disk as a map from names to entries. A path is followed alike in two disks
that agree on which places are directories, so the path of a directory still leads to it after
entries of it have changed. Proved: looking up, writing and removing a file below the path of a
directory is looking up, setting and removing an entry of the map, and the rest of the disk
stays as it is. -/

namespace ScriptBridge

namespace Disk

variable {d d' : Disk} {t t' u : Trail}

/-! ### Trails -/

/-- A trail of which each entry lies in the directory that the trail before it reaches. -/
inductive Walked (d : Disk) : Trail → Prop where
  | root : Walked d []
  | down {t : Trail} {es : List (String × Node)} {name : String} {node : Node} (h : Walked d t)
      (hd : d.reached t = .directory es) (hl : es.lookup name = some node) :
      Walked d ((name, node) :: t)

theorem place_cons (name : String) (node : Node) (t : Trail) :
    Trail.place ((name, node) :: t) = Trail.place t ++ [name] := by
  simp [Trail.place]

theorem reached_cons (d : Disk) (name : String) (node : Node) (t : Trail) :
    d.reached ((name, node) :: t) = node := rfl

/-- A trail reaches what is found at its place. -/
theorem Walked.find? (h : d.Walked t) : d.root.find? t.place = some (d.reached t) := by
  induction h with
  | root => rfl
  | down h hd hl ih =>
    rw [place_cons, Node.find?_append, ih, hd, reached_cons]
    simp [Node.find?, hl]

theorem Walked.tail (h : d.Walked t) : d.Walked t.tail := by
  cases h with
  | root => exact .root
  | down h => exact h

/-- The trail one up from a directory reaches a directory. -/
theorem Walked.isDirectory_tail (h : d.Walked t) (ht : (d.reached t).isDirectory) :
    (d.reached t.tail).isDirectory := by
  cases h with
  | root => exact ht
  | down h hd => rw [List.tail_cons, hd]; rfl

/-- What one step does: it stays, goes up, or enters an entry of a directory. -/
theorem step_eq_ok {component : String} (h : d.step t component = .ok u) :
    ∃ es, d.reached t = .directory es ∧
      ((component = "" ∨ component = ".") ∧ u = t ∨
        component = ".." ∧ u = t.tail ∨
        ¬(component = "" ∨ component = ".") ∧ component ≠ ".." ∧
          component.utf8ByteSize ≤ d.limits.name ∧
          ∃ node, es.lookup component = some node ∧ u = (component, node) :: t) := by
  unfold step at h
  split at h
  · next es hes =>
    refine ⟨es, hes, ?_⟩
    split_ifs at h with hstay hup hlong
    · cases h
      exact .inl ⟨by simpa using hstay, rfl⟩
    · cases h
      exact .inr (.inl ⟨by simpa using hup, rfl⟩)
    · split at h
      · next node hnode =>
        cases h
        exact .inr (.inr ⟨by simpa using hstay, by simpa using hup, by omega, node, hnode, rfl⟩)
      · cases h
  · cases h

theorem Walked.step {component : String} (h : d.Walked t) (hs : d.step t component = .ok u) :
    d.Walked u := by
  obtain ⟨es, hes, ⟨-, rfl⟩ | ⟨-, rfl⟩ | ⟨-, -, -, node, hnode, rfl⟩⟩ := step_eq_ok hs
  · exact h
  · exact h.tail
  · exact .down h hes hnode

theorem follow_cons (d : Disk) (t : Trail) (c : String) (cs : List String) :
    d.follow t (c :: cs) = (d.step t c).bind fun u => d.follow u cs := rfl

theorem follow_append (d : Disk) (t : Trail) (cs more : List String) :
    d.follow t (cs ++ more) = (d.follow t cs).bind fun u => d.follow u more := by
  simp only [follow, List.foldlM_append]
  rfl

theorem Walked.follow {components : List String} (h : d.Walked t)
    (hf : d.follow t components = .ok u) : d.Walked u := by
  induction components generalizing t with
  | nil =>
    cases hf
    exact h
  | cons c cs ih =>
    rw [follow_cons] at hf
    cases hs : d.step t c with
    | error e =>
      rw [hs] at hf
      cases hf
    | ok v =>
      rw [hs] at hf
      exact ih (h.step hs) hf

/-- Every step of a way leads through a directory. -/
theorem isDirectory_of_follow {components : List String} (hf : d.follow t components = .ok u)
    (hu : (d.reached u).isDirectory) : (d.reached t).isDirectory := by
  cases components with
  | nil =>
    cases hf
    exact hu
  | cons c cs =>
    rw [follow_cons] at hf
    cases hs : d.step t c with
    | error e =>
      rw [hs] at hf
      cases hf
    | ok v =>
      obtain ⟨es, hes, -⟩ := step_eq_ok hs
      rw [hes]
      rfl

/-! ### The same way in two disks -/

/-- Trails in two disks that lead to directories at one place. -/
structure Parallel (d d' : Disk) (t t' : Trail) : Prop where
  place : t.place = t'.place
  left : d.Walked t
  right : d'.Walked t'
  directory : (d.reached t).isDirectory
  directory' : (d'.reached t').isDirectory

theorem Parallel.tail (h : Parallel d d' t t') : Parallel d d' t.tail t'.tail where
  place := by
    have hnames : t.map Prod.fst = t'.map Prod.fst := List.reverse_inj.1 h.place
    rw [Trail.place, Trail.place, List.map_tail, List.map_tail, hnames]
  left := h.left.tail
  right := h.right.tail
  directory := h.left.isDirectory_tail h.directory
  directory' := h.right.isDirectory_tail h.directory'

theorem exists_of_isDirectory {node : Node} (h : node.isDirectory) :
    ∃ es, node = .directory es := by
  cases node with
  | directory es => exact ⟨es, rfl⟩
  | file | device => cases h

section Alike

variable (hk : Node.KeepsDirectories d.root d'.root) (hl : d'.limits = d.limits)

include hk hl

theorem Parallel.step {component : String} (h : Parallel d d' t t')
    (hs : d.step t component = .ok u) (hu : (d.reached u).isDirectory) :
    ∃ u', d'.step t' component = .ok u' ∧ Parallel d d' u u' := by
  obtain ⟨es', hes'⟩ := exists_of_isDirectory h.directory'
  obtain ⟨es, hes, ⟨hstay, rfl⟩ | ⟨hup, rfl⟩ | ⟨hstay, hup, hlong, node, hnode, rfl⟩⟩ :=
    step_eq_ok hs
  · exact ⟨t', by simp [Disk.step, hes', hstay], h⟩
  · exact ⟨t'.tail, by simp [Disk.step, hes', hup], h.tail⟩
  · have hwalked : d.Walked ((component, node) :: t) := h.left.step hs
    obtain ⟨below, rfl⟩ := exists_of_isDirectory hu
    have hfound := hwalked.find?
    rw [place_cons, h.place, reached_cons] at hfound
    obtain ⟨below', hfound'⟩ := hk _ _ hfound
    have hnode' : es'.lookup component = some (.directory below') := by
      simpa [Node.find?_append, h.right.find?, hes', Node.find?] using hfound'
    have hs' : d'.step t' component = .ok ((component, .directory below') :: t') := by
      have hshort : ¬d.limits.name < component.utf8ByteSize := by omega
      have hstays : (component == "" || component == ".") = false := by simpa using hstay
      simp [Disk.step, hes', hstays, hup, hl, hshort, hnode']
    exact ⟨_, hs', by rw [place_cons, place_cons, h.place], hwalked, h.right.step hs', rfl, rfl⟩

theorem Parallel.follow {components : List String} (h : Parallel d d' t t')
    (hf : d.follow t components = .ok u) (hu : (d.reached u).isDirectory) :
    ∃ u', d'.follow t' components = .ok u' ∧ Parallel d d' u u' := by
  induction components generalizing t t' with
  | nil =>
    cases hf
    exact ⟨t', rfl, h⟩
  | cons c cs ih =>
    rw [follow_cons] at hf
    cases hs : d.step t c with
    | error e =>
      rw [hs] at hf
      cases hf
    | ok v =>
      rw [hs] at hf
      have hv : (d.reached v).isDirectory := isDirectory_of_follow hf hu
      obtain ⟨v', hs', hparallel⟩ := h.step hk hl hs hv
      obtain ⟨u', hf', hu'⟩ := ih hparallel hf
      exact ⟨u', by rw [follow_cons, hs']; exact hf', hu'⟩

end Alike

/-! ### A directory and its entries -/

/-- The name of an entry that can be reached by its path below `p`. -/
structure Admits (d : Disk) (p : Path) (name : String) : Prop where
  component : Path.IsComponent name
  noDots : name ≠ "." ∧ name ≠ ".."
  visible : '\x00' ∉ name.toList
  short : name.utf8ByteSize ≤ d.limits.name
  reach : (p.join ⟨name⟩).text.utf8ByteSize ≤ d.limits.path

instance (d : Disk) (p : Path) (name : String) : Decidable (d.Admits p name) :=
  decidable_of_iff
    ((name ≠ "" ∧ '/' ∉ name.toList) ∧ (name ≠ "." ∧ name ≠ "..") ∧ '\x00' ∉ name.toList ∧
      name.utf8ByteSize ≤ d.limits.name ∧ (p.join ⟨name⟩).text.utf8ByteSize ≤ d.limits.path)
    ⟨fun ⟨⟨nonempty, single⟩, noDots, visible, short, reach⟩ =>
        ⟨⟨nonempty, single⟩, noDots, visible, short, reach⟩,
      fun h => ⟨⟨h.component.nonempty, h.component.single⟩, h.noDots, h.visible, h.short, h.reach⟩⟩

theorem Admits.set {p : Path} {name : String} (h : d.Admits p name) (place : List String)
    (node : Node) : (d.set place node).Admits p name :=
  ⟨h.component, h.noDots, h.visible, h.short, h.reach⟩

/-- The path leads to a directory with these entries, which are files and directories, each of
another name. The current directory exists as well. -/
structure Folder (d : Disk) (p : Path) (place : List String) (entries : List (String × Node)) :
    Prop where
  standing : ∃ t, d.follow [] d.current = .ok t ∧ (d.reached t).isDirectory
  visible : '\x00' ∉ p.text.toList
  leads : ∃ t, d.locate p = .ok t ∧ t.place = place ∧ d.reached t = .directory entries
  nodup : (entries.map Prod.fst).Nodup
  kinds : ∀ e ∈ entries, e.2.isFile ∨ e.2.isDirectory
  admits : ∀ e ∈ entries, d.Admits p e.1

section Located

variable {p : Path}

theorem accepted_of_locate (hvisible : '\x00' ∉ p.text.toList) (h : d.locate p = .ok t) :
    p.text ≠ "" ∧ d.accept p = .ok p ∧ d.follow (d.start p) p.components = .ok t := by
  have haccept : d.accept p = .ok p ∧ p.text ≠ "" := by
    rw [locate, accept, Path.visible_eq_self hvisible] at h
    rw [accept, Path.visible_eq_self hvisible]
    split_ifs at h ⊢ with hempty
    · cases h
    · cases h
    · exact ⟨rfl, fun hp => hempty (beq_iff_eq.2 hp)⟩
  rw [locate, haccept.1] at h
  exact ⟨haccept.2, haccept.1, h⟩

/-- A slash behind the path of a directory leads nowhere else. -/
theorem follow_names (h : d.follow t p.components = .ok u) : d.follow t p.names = .ok u := by
  rw [Path.components, follow_append] at h
  cases hnames : d.follow t p.names with
  | error e =>
    rw [hnames] at h
    cases h
  | ok v =>
    rw [hnames] at h
    split_ifs at h
    · obtain ⟨w, hw, hwu⟩ : ∃ w, d.step v "" = .ok w ∧ w = u := by
        change (d.step v "").bind (fun u => .ok u) = .ok u at h
        cases hs : d.step v "" with
        | error e =>
          rw [hs] at h
          cases h
        | ok w =>
          rw [hs] at h
          cases h
          exact ⟨_, rfl, rfl⟩
      obtain ⟨es, -, ⟨-, rfl⟩ | ⟨hup, -⟩ | ⟨hstay, -⟩⟩ := step_eq_ok hw
      · rw [hwu]
      · exact absurd hup (by decide)
      · exact absurd (.inl rfl) hstay
    · exact h

theorem walked_start (d : Disk) (p : Path) : d.Walked (d.start p) := by
  rw [start]
  split_ifs
  · exact .root
  · cases h : d.follow [] d.current with
    | error e => exact .root
    | ok t => exact Walked.root.follow h

end Located

namespace Folder

variable {p : Path} {place : List String} {entries entries' : List (String × Node)}
  {name text : String}

theorem text_ne_empty (hf : d.Folder p place entries) : p.text ≠ "" := by
  obtain ⟨t, ht, -⟩ := hf.leads
  exact (accepted_of_locate hf.visible ht).1

theorem find?_place (hf : d.Folder p place entries) :
    d.root.find? place = some (.directory entries) := by
  obtain ⟨t, ht, rfl, hentries⟩ := hf.leads
  have hwalked : d.Walked t :=
    (walked_start d p).follow (accepted_of_locate hf.visible ht).2.2
  rw [hwalked.find?, hentries]

/-- Nothing is created for the path of a directory. -/
theorem makeDirectories (hf : d.Folder p place entries) : d.makeDirectories p = (d, none) := by
  obtain ⟨t, ht, -, hentries⟩ := hf.leads
  rw [Disk.makeDirectories, Path.isEmpty_eq_false hf.text_ne_empty, ht]
  dsimp only
  rw [if_neg (by decide), hentries]
  rfl

theorem accept_join (hf : d.Folder p place entries) (hn : d.Admits p name) :
    d.accept (p.join ⟨name⟩) = .ok (p.join ⟨name⟩) := by
  have hvisible := Path.visible_join hf.text_ne_empty hn.component hf.visible hn.visible
  have hne := Path.text_join_ne_empty hf.text_ne_empty hn.component
  rw [accept, hvisible, Path.isEmpty_eq_false hne]
  simp [Nat.not_lt.2 hn.reach]

theorem start_join (hf : d.Folder p place entries) (hn : d.Admits p name) :
    d.start (p.join ⟨name⟩) = d.start p := by
  rw [start, start, Path.isAbsolute_join hf.text_ne_empty hn.component]

/-- The path of an entry leads to the directory, and one step on. -/
theorem locate_join (hf : d.Folder p place entries) (hn : d.Admits p name) (ht : d.locate p = .ok t) :
    d.locate (p.join ⟨name⟩) = d.step t name := by
  have hnames := follow_names (accepted_of_locate hf.visible ht).2.2
  rw [locate, hf.accept_join hn]
  dsimp only [Except.bind]
  rw [hf.start_join hn, Path.components_join hf.text_ne_empty hn.component, follow_append, hnames]
  change (d.step t name).bind (fun u => .ok u) = d.step t name
  cases d.step t name <;> rfl

theorem step_name (hn : d.Admits p name) (ht : d.reached t = .directory entries) :
    d.step t name =
      match entries.lookup name with
      | some node => .ok ((name, node) :: t)
      | none => .error .missing := by
  have hstay : (name == "" || name == ".") = false := by
    simp [hn.component.nonempty, hn.noDots.1]
  have hup : (name == "..") = false := beq_false_of_ne hn.noDots.2
  have hshort : ¬d.limits.name < name.utf8ByteSize := Nat.not_lt.2 hn.short
  cases h : entries.lookup name <;> simp [step, ht, hstay, hup, hshort, h]

/-- What stands at the path of a name is the entry of that name. -/
theorem node?_join (hf : d.Folder p place entries) (hn : d.Admits p name) :
    d.node? (p.join ⟨name⟩) = entries.lookup name := by
  obtain ⟨t, ht, -, hentries⟩ := hf.leads
  rw [node?, hf.locate_join hn ht, step_name hn hentries]
  cases entries.lookup name <;> rfl

theorem newPlace_join (hf : d.Folder p place entries) (hn : d.Admits p name) :
    d.newPlace (p.join ⟨name⟩) = .ok (place ++ [name]) := by
  obtain ⟨t, ht, rfl, hentries⟩ := hf.leads
  have hnames := follow_names (accepted_of_locate hf.visible ht).2.2
  rw [newPlace, hf.accept_join hn]
  dsimp only [Except.bind]
  rw [hf.start_join hn, Path.components_join hf.text_ne_empty hn.component,
    Path.fileName_join hf.text_ne_empty hn.component, List.dropLast_concat, hnames]
  dsimp only
  have hdots : ["", ".", ".."].contains name = false := by
    simp [hn.component.nonempty, hn.noDots]
  rw [placeIn, hentries, hdots]
  simp [Node.isDirectory, Nat.not_lt.2 hn.short]

theorem find?_entry (hf : d.Folder p place entries) (name : String) :
    d.root.find? (place ++ [name]) = entries.lookup name := by
  rw [Node.find?_append, hf.find?_place]
  cases h : entries.lookup name <;> simp [Node.find?, h]

/-! ### Changes -/

/-- The same disk with other entries in the directory. -/
theorem set_entry (hf : d.Folder p place entries) (name : String) (node : Node) :
    d.set (place ++ [name]) node =
      d.set place (.directory (Node.setEntry name node entries)) := by
  rw [set, set, Node.put_append hf.find?_place]
  rfl

theorem set_self (hf : d.Folder p place entries) : d.set place (.directory entries) = d := by
  rw [set, Node.put_self hf.find?_place]

theorem set_set (hf : d.Folder p place entries) (node node' : Node) :
    (d.set place node).set place node' = d.set place node' := by
  rw [set, set, Node.put_put hf.find?_place]
  rfl

/-- A file is written over an entry of its name, if that is a file or missing. -/
theorem write_join (hf : d.Folder p place entries) (hn : d.Admits p name)
    (hfree : ∀ es, entries.lookup name ≠ some (.directory es)) (text : String) :
    d.write (p.join ⟨name⟩) text =
      .ok (d.set place (.directory (Node.setEntry name (.file text) entries))) := by
  rw [write, hf.newPlace_join hn]
  dsimp only
  rw [hf.find?_entry name, ← hf.set_entry]
  cases h : entries.lookup name with
  | none => rfl
  | some node =>
    rcases hf.kinds _ (Node.mem_of_lookup h) with hkind | hkind
    · cases node with
      | file => rfl
      | device | directory => cases hkind
    · obtain ⟨es, rfl⟩ := exists_of_isDirectory hkind
      exact absurd h (hfree es)

theorem write_join_directory (hf : d.Folder p place entries) (hn : d.Admits p name)
    {es : List (String × Node)} (h : entries.lookup name = some (.directory es)) (text : String) :
    d.write (p.join ⟨name⟩) text = .error .cannotOpen := by
  rw [write, hf.newPlace_join hn]
  dsimp only
  rw [hf.find?_entry name, h]

theorem remove_join (hf : d.Folder p place entries) (hn : d.Admits p name)
    (h : entries.lookup name = some (.file text)) :
    d.remove (p.join ⟨name⟩) =
      .ok (d.set place (.directory (entries.filter fun e => e.1 != name))) := by
  obtain ⟨t, ht, rfl, hentries⟩ := hf.leads
  have hlast : (p.join ⟨name⟩).names.getLast? = some name := by
    rw [Path.names_join hf.text_ne_empty hn.component, List.getLast?_concat]
  rw [remove, hf.locate_join hn ht, step_name hn hentries, h]
  dsimp only
  rw [Path.visible_join hf.text_ne_empty hn.component hf.visible hn.visible, hlast]
  simp [hn.noDots.1, reached_cons, erase, hentries]

section Kept

variable (hf : d.Folder p place entries) (hk : Node.KeepsEntries entries entries')

include hf hk

theorem keepsDirectories :
    Node.KeepsDirectories d.root (d.set place (.directory entries')).root :=
  Node.keepsDirectories_put hf.find?_place hk

/-- A way that starts at the root starts there in both disks. -/
theorem parallel_root : Parallel d (d.set place (.directory entries')) [] [] := by
  obtain ⟨t, ht, hdirectory⟩ := hf.standing
  have hroot : (d.reached []).isDirectory := isDirectory_of_follow ht hdirectory
  obtain ⟨es, hes⟩ := exists_of_isDirectory hroot
  obtain ⟨es', hes'⟩ := hf.keepsDirectories hk [] es (congrArg some hes)
  have hroot' : ((d.set place (.directory entries')).reached []).isDirectory := by
    rw [show (d.set place (.directory entries')).reached [] = .directory es' from
      Option.some.inj hes']
    rfl
  exact ⟨rfl, .root, .root, hroot, hroot'⟩

theorem exists_standing :
    ∃ t t', d.follow [] d.current = .ok t ∧
      (d.set place (.directory entries')).follow [] d.current = .ok t' ∧
      Parallel d (d.set place (.directory entries')) t t' := by
  obtain ⟨t, ht, hdirectory⟩ := hf.standing
  obtain ⟨t', ht', hparallel⟩ :=
    (hf.parallel_root hk).follow (hf.keepsDirectories hk) rfl ht hdirectory
  exact ⟨t, t', ht, ht', hparallel⟩

theorem parallel_start :
    Parallel d (d.set place (.directory entries')) (d.start p)
      ((d.set place (.directory entries')).start p) := by
  rw [start, start]
  split_ifs
  · exact hf.parallel_root hk
  · obtain ⟨t, t', ht, ht', hparallel⟩ := hf.exists_standing hk
    rw [ht, show (d.set place (.directory entries')).follow []
      (d.set place (.directory entries')).current = .ok t' from ht']
    exact hparallel

/-- The path still leads to the directory after files in it have changed. -/
theorem set (hnodup : (entries'.map Prod.fst).Nodup)
    (hkinds : ∀ e ∈ entries', e.2.isFile ∨ e.2.isDirectory)
    (hadmits : ∀ e ∈ entries', d.Admits p e.1) :
    (d.set place (.directory entries')).Folder p place entries' where
  standing := by
    obtain ⟨t, t', -, ht', hparallel⟩ := hf.exists_standing hk
    exact ⟨t', ht', hparallel.directory'⟩
  visible := hf.visible
  leads := by
    obtain ⟨t, ht, hplace, hentries⟩ := hf.leads
    have hdirectory : (d.reached t).isDirectory := by rw [hentries]; rfl
    obtain ⟨-, haccept, hway⟩ := accepted_of_locate hf.visible ht
    obtain ⟨t', ht', hparallel⟩ :=
      (hf.parallel_start hk).follow (hf.keepsDirectories hk) rfl hway hdirectory
    refine ⟨t', ?_, hparallel.place.symm.trans hplace, ?_⟩
    · rw [locate, show (d.set place (.directory entries')).accept p = .ok p from haccept]
      exact ht'
    · have hfound := hparallel.right.find?
      rw [← hparallel.place, hplace] at hfound
      exact Option.some.inj (hfound.symm.trans (Node.find?_put hf.find?_place _))
  nodup := hnodup
  kinds := hkinds
  admits := fun e he => (hadmits e he).set place (.directory entries')

end Kept

end Folder

end Disk

end ScriptBridge
