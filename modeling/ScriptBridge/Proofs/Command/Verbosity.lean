import ScriptBridge.Command.Run

/-! What a quiet run leaves out. Each stage of a run is compared with the same stage of a quiet
run, from the configuration to the output, and the stages are put together along the run. Proved:
a quiet run ends with the same exit code, the same standard error and the same disk, and its
standard output lacks the notices and the details and nothing else. -/

namespace ScriptBridge

/-! ### Notices and details -/

namespace Message

def isOptional : Message → Bool
  | notice _ | detail _ => true
  | output _ | error _ => false

/-- The messages that quiet runs give as well. -/
def essential (ms : List Message) : List Message := ms.filter fun m => !m.isOptional

theorem essential_append (ms ms' : List Message) :
    essential (ms ++ ms') = essential ms ++ essential ms' := List.filter_append ..

theorem essential_map {α : Type} {f : α → Message} (hf : ∀ a, (f a).isOptional = false)
    (l : List α) : essential (l.map f) = l.map f := by
  simp [essential, hf]

/-- Whether a text begins with the mark of a notice or of a detail. -/
def isMarked (text : String) : Bool :=
  "[notice] ".toList.isPrefixOf text.toList || "[debug] ".toList.isPrefixOf text.toList

/-- On the standard output a message shows by its mark whether it is optional. -/
def ShowsKind (m : Message) : Prop := isMarked m.onOutput = m.isOptional

theorem isMarked_append {mark : String} (h : isMarked mark) (text : String) :
    isMarked (mark ++ text) := by
  have hprefix {start : List Char} (hs : start.isPrefixOf mark.toList) :
      start.isPrefixOf (mark ++ text).toList := by
    rw [List.isPrefixOf_iff_prefix] at hs ⊢
    rw [String.toList_append]
    exact hs.trans (List.prefix_append _ _)
  simp only [isMarked, Bool.or_eq_true] at h ⊢
  exact h.imp hprefix hprefix

/-- Both marks begin with a square bracket. -/
theorem isMarked_of_ne {text : String} (h : text.toList.head? ≠ some '[') :
    isMarked text = false := by
  unfold isMarked
  cases hc : text.toList with
  | nil => rfl
  | cons c cs =>
    rw [hc] at h
    have hne : ('[' == c) = false := beq_eq_false_iff_ne.2 fun he => h (congrArg some he.symm)
    simp [List.isPrefixOf, hne]

theorem showsKind_notice (text : String) : (notice text).ShowsKind := by
  rw [ShowsKind, onOutput, String.append_assoc]
  exact isMarked_append (by decide) _

theorem showsKind_detail (text : String) : (detail text).ShowsKind := by
  rw [ShowsKind, onOutput, String.append_assoc]
  exact isMarked_append (by decide) _

theorem showsKind_error (text : String) : (error text).ShowsKind := rfl

/-- The lines under the greeting are indented. -/
theorem showsKind_indented {label : String} (h : label.toList.head? = some ' ') (text : String) :
    (output (label ++ text)).ShowsKind := by
  refine isMarked_of_ne ?_
  simp [onOutput, String.toList_append, List.head?_append, h]

end Message

open Message

/-! ### A quiet stage -/

namespace RunResult

/-- The run without its optional messages. -/
def hushed (r : RunResult) : RunResult := { r with messages := essential r.messages }

theorem hushed_after (ms : List Message) (r : RunResult) :
    (after ms r).hushed = after (essential ms) r.hushed := by
  simp only [hushed, after, essential_append]

theorem hushed_failing (failed : Bool) (r : RunResult) :
    (failing failed r).hushed = failing failed r.hushed := by
  cases failed <;> rfl

/-- Nothing that is left out goes to the standard error. -/
theorem standardError_hushed (r : RunResult) : r.hushed.standardError = r.standardError := by
  simp only [standardError, hushed]
  induction r.messages with
  | nil => rfl
  | cons m ms ih =>
    cases m <;> simp_all [essential, isOptional, onError]

end RunResult

namespace Run

variable (readers : DocumentReaders) (disk : Disk) (o : Options)

theorem essential_ifVerbose {ms : List Message} (h : ∀ m ∈ ms, m.isOptional) :
    essential (ifVerbose { o with quiet := false } ms) =
      ifVerbose { o with quiet := true } ms := by
  simpa [essential, ifVerbose] using h

theorem loadConfiguration_quiet (root : Path) :
    let loud := loadConfiguration readers disk { o with quiet := false } root
    loadConfiguration readers disk { o with quiet := true } root =
      (loud.1, essential loud.2) := by
  simp only [loadConfiguration]
  split
  · rfl
  · next path _ =>
    split
    · rw [essential_ifVerbose o (by simp [isOptional])]
    · next text _ =>
      split <;> rw [essential_ifVerbose o (by simp [isOptional])]

theorem closing_quiet (g : Generation) (s : OutputSummary) :
    closing { o with quiet := true } g s = essential (closing { o with quiet := false } g s) := by
  rw [closing, closing, essential_append, essential_ifVerbose o (by simp [isOptional])]
  congr 1
  split <;> rfl

theorem writeOutput_quiet (g : Generation) :
    writeOutput disk { o with quiet := true } g =
      (writeOutput disk { o with quiet := false } g).hushed := by
  simp only [writeOutput]
  split
  · rfl
  · rw [closing_quiet]
    split
    · rfl
    · next path _ =>
      split
      · rw [RunResult.hushed, essential_append, essential_ifVerbose o (by simp [isOptional])]
      · rfl

theorem withCatalog_quiet (catalog : Catalog) :
    withCatalog readers disk { o with quiet := true } catalog =
      (withCatalog readers disk { o with quiet := false } catalog).hushed := by
  have hroot : projectRoot disk { o with quiet := true } =
      projectRoot disk { o with quiet := false } := rfl
  simp only [withCatalog]
  rw [RunResult.hushed_failing, RunResult.hushed_after, ← writeOutput_quiet, hroot,
    loadConfiguration_quiet]
  simp only [essential_append]
  rw [essential_map fun _ => rfl, essential_map fun _ => rfl, essential_map fun _ => rfl]
  rw [essential_ifVerbose o (by simp [isOptional]), essential_ifVerbose o (by simp [isOptional]),
    essential_ifVerbose o (by simp [isOptional]), essential_ifVerbose o (by simp [isOptional])]

/-- While the catalog is loaded only errors are told. -/
theorem loadCatalog_messages :
    ∀ m ∈ (loadCatalog readers disk o).messages, ∃ text, m = .error text := by
  have hmap (ds : List Diagnostic) : ∀ m ∈ ds.map ofDiagnostic, ∃ text, m = .error text :=
    List.forall_mem_map.2 fun d _ => ⟨_, rfl⟩
  unfold loadCatalog
  split
  · exact List.forall_mem_singleton.2 ⟨_, rfl⟩
  · dsimp only
    split
    · unfold loadProjectTypes
      split
      · exact hmap _
      · split
        · exact List.forall_mem_singleton.2 ⟨_, rfl⟩
        · exact hmap _
    · exact List.forall_mem_append.2 ⟨hmap _, List.forall_mem_singleton.2 ⟨_, rfl⟩⟩

theorem generator_hushed :
    generator readers disk { o with quiet := true } =
      (generator readers disk { o with quiet := false }).hushed := by
  have hloaded : loadCatalog readers disk { o with quiet := true } =
      loadCatalog readers disk { o with quiet := false } := rfl
  have hintroduction : essential (introduction o) = introduction o := by
    rw [introduction, essential_append, essential_map fun _ => rfl]
    rfl
  have hmessages : essential (loadCatalog readers disk { o with quiet := false }).messages =
      (loadCatalog readers disk { o with quiet := false }).messages := by
    refine List.filter_eq_self.2 fun m hm => ?_
    obtain ⟨text, rfl⟩ := loadCatalog_messages readers disk _ m hm
    rfl
  unfold generator
  dsimp only
  rw [hloaded, RunResult.hushed_after, essential_append, hmessages]
  change RunResult.after (introduction o ++ _) _ =
    RunResult.after (essential (introduction o) ++ _) _
  rw [hintroduction]
  cases (loadCatalog readers disk { o with quiet := false }).catalog with
  | none => rfl
  | some catalog =>
    exact congrArg (RunResult.after _) (withCatalog_quiet readers disk o catalog)

/-! ### The marks of messages -/

/-- Every message shows by its mark whether it is optional. -/
def ShowKinds (ms : List Message) : Prop := ∀ m ∈ ms, m.ShowsKind

theorem ShowKinds.append {ms ms' : List Message} (h : ShowKinds ms) (h' : ShowKinds ms') :
    ShowKinds (ms ++ ms') := List.forall_mem_append.2 ⟨h, h'⟩

theorem showKinds_map {α : Type} {f : α → Message} (hf : ∀ a, (f a).ShowsKind) (l : List α) :
    ShowKinds (l.map f) := List.forall_mem_map.2 fun a _ => hf a

theorem showKinds_singleton {m : Message} (h : m.ShowsKind) : ShowKinds [m] :=
  List.forall_mem_singleton.2 h

theorem ShowKinds.ifVerbose {ms : List Message} (h : ShowKinds ms) :
    ShowKinds (ifVerbose o ms) := by
  unfold Run.ifVerbose
  split
  · exact nofun
  · exact h

theorem notice_showKinds (text : String) : ShowKinds (ifVerbose o [.notice text]) :=
  .ifVerbose o (showKinds_singleton (showsKind_notice text))

theorem introduction_showKinds : ShowKinds (introduction o) := by
  refine .append ?_ (showKinds_map (fun p => showsKind_indented rfl p) _)
  have hgreeting : (output "[information] Starting gdbridgegen.").ShowsKind := by
    rw [ShowsKind]
    decide
  refine List.forall_mem_cons.2 ⟨hgreeting, List.forall_mem_cons.2 ⟨showsKind_indented rfl _, ?_⟩⟩
  exact showKinds_singleton (showsKind_indented rfl _)

theorem loadCatalog_showKinds : ShowKinds (loadCatalog readers disk o).messages := by
  intro m hm
  obtain ⟨text, rfl⟩ := loadCatalog_messages readers disk o m hm
  exact showsKind_error text

theorem loadConfiguration_showKinds (root : Path) :
    ShowKinds (loadConfiguration readers disk o root).2 := by
  unfold loadConfiguration
  dsimp only
  split
  · exact nofun
  · split
    · exact notice_showKinds o _
    · split <;> exact notice_showKinds o _

theorem writeOutput_showKinds (g : Generation) : ShowKinds (writeOutput disk o g).messages := by
  have hclosing (s : OutputSummary) : ShowKinds (closing o g s) := by
    refine .append (notice_showKinds o _) ?_
    split
    · exact showKinds_singleton (showsKind_error _)
    · exact nofun
  unfold writeOutput
  dsimp only
  split
  · exact showKinds_singleton (showsKind_error _)
  · split
    · exact hclosing _
    · split
      · exact (notice_showKinds o _).append (hclosing _)
      · exact List.forall_mem_cons.2 ⟨showsKind_error _, hclosing _⟩

theorem withCatalog_showKinds (catalog : Catalog) :
    ShowKinds (withCatalog readers disk o catalog).messages := by
  have hfailing (failed : Bool) (r : RunResult) : (r.failing failed).messages = r.messages := by
    cases failed <;> rfl
  unfold withCatalog
  dsimp only
  rw [hfailing]
  refine .append ?_ (writeOutput_showKinds disk o _)
  refine .append ?_ (.ifVerbose o (showKinds_map (fun _ => showsKind_detail _) _))
  refine .append ?_ (showKinds_map (fun _ => showsKind_error _) _)
  refine .append ?_ (notice_showKinds o _)
  refine .append ?_ (showKinds_map (fun _ => showsKind_error _) _)
  refine .append ?_ (loadConfiguration_showKinds readers disk o _)
  refine .append ?_ (notice_showKinds o _)
  exact .append (notice_showKinds o _) (showKinds_map (fun _ => showsKind_error _) _)

theorem generator_showKinds : ShowKinds (generator readers disk o).messages := by
  unfold generator
  dsimp only
  refine .append (.append (introduction_showKinds o) (loadCatalog_showKinds readers disk o)) ?_
  split
  · exact nofun
  · exact withCatalog_showKinds readers disk o _

/-! ### The whole run -/

/-- Where every message shows its kind, the marks tell which ones a quiet run leaves out. -/
theorem map_onOutput_essential {ms : List Message} (h : ShowKinds ms) :
    (essential ms).map onOutput = (ms.map onOutput).filter fun text => !isMarked text := by
  rw [List.filter_map, essential]
  congr 1
  exact List.filter_congr fun m hm => by rw [Function.comp_apply, h m hm]

/-- A quiet run ends as the same run does that is not quiet. Of what that one says on the
standard output, one message behind the other, it says all but the messages that are marked as
notices or as details. -/
theorem generator_quiet (readers : DocumentReaders) (disk : Disk) (o : Options) :
    let loud := generator readers disk { o with quiet := false }
    let quiet := generator readers disk { o with quiet := true }
    quiet.exitCode = loud.exitCode ∧ quiet.standardError = loud.standardError ∧
      quiet.disk = loud.disk ∧
      loud.standardOutput = String.join (loud.messages.map onOutput) ∧
      quiet.standardOutput =
        String.join ((loud.messages.map onOutput).filter fun text => !isMarked text) := by
  intro loud quiet
  have hquiet : quiet = loud.hushed := generator_hushed readers disk o
  have hkinds : ShowKinds loud.messages := generator_showKinds readers disk _
  rw [hquiet]
  refine ⟨rfl, RunResult.standardError_hushed loud, rfl, rfl, ?_⟩
  rw [← map_onOutput_essential hkinds]
  rfl

end Run

end ScriptBridge
