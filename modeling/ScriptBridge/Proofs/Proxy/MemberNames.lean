import ScriptBridge.Proofs.Engine.MemberChains
import ScriptBridge.Proxy.Unit

/-! Names of the members of a proxy. The members of a whole chain of types stand side by side in
one class, where only methods may share a name. Proved: two members of one name are methods with
different signatures or members of different kinds, so that names clash exactly where a name
stands for members of different kinds, and never where each name has one kind along the chain. -/

namespace ScriptBridge

namespace Member

/-! ### Written members -/

/-- What stands before the declaration of a member. -/
def leadIn (m : Member) : List Fragment := .blank 1 :: m.documentation

/-- The line after a declaration that switches warnings on again. -/
def leadOut (m : Member) : List Fragment :=
  if m.obsolete.isSome then [.line "#pragma warning restore CS0618"] else []

/-- The declaration of a member; a property that can be neither read nor set has none,
and neither has an event that cannot be both joined and left. -/
def declaration? (m : Member) : Option (List Fragment) :=
  match m.shape with
  | .property getter setter =>
    if getter || setter then some (m.propertyCode getter setter) else none
  | .event adder remover => if adder && remover then some m.eventCode else none
  | .method typeParameters parameters => some (m.methodCode typeParameters parameters)

/-- Whether a member is written into the proxy of the given name. -/
def isWritten (proxy : String) (m : Member) : Bool :=
  !(reservedInProxy.contains m.name || m.name == proxy || m.isToString) && m.declaration?.isSome

variable {proxy : String} {m n : Member}

theorem isWritten_iff :
    m.isWritten proxy = true ↔
      m.name ∉ reservedInProxy ∧ m.name ≠ proxy ∧ m.isToString = false ∧
        ∃ code, m.declaration? = some code := by
  simp only [isWritten, Bool.and_eq_true, Bool.not_eq_true', Bool.or_eq_false_iff,
    beq_eq_false_iff_ne, ← Bool.not_eq_true (reservedInProxy.contains m.name),
    List.contains_iff_mem, Option.isSome_iff_exists, and_assoc]

/-- Each writer puts its declaration between what stands before and the line after it. -/
theorem proxyCode_eq (proxy : String) (m : Member) :
    m.proxyCode proxy =
      if reservedInProxy.contains m.name || m.name == proxy || m.isToString then []
      else match m.declaration? with
        | some code => m.leadIn ++ code ++ m.leadOut
        | none => [] := by
  rw [proxyCode, declaration?]
  cases m.shape with
  | property getter setter => cases getter <;> cases setter <;> rfl
  | event adder remover => cases adder <;> cases remover <;> rfl
  | method ts ps => rfl

theorem proxyCode_of_isWritten {code : List Fragment} (h : m.isWritten proxy = true)
    (hcode : m.declaration? = some code) : m.proxyCode proxy = m.leadIn ++ code ++ m.leadOut := by
  rw [isWritten, Bool.and_eq_true, Bool.not_eq_true'] at h
  rw [proxyCode_eq, h.1, hcode]
  rfl

theorem proxyCode_of_not_isWritten (h : m.isWritten proxy = false) : m.proxyCode proxy = [] := by
  rw [proxyCode_eq]
  split_ifs with hskip
  · rfl
  · rw [Bool.not_eq_true] at hskip
    rw [isWritten, hskip, Bool.not_false, Bool.true_and, Option.isSome_eq_false_iff,
      Option.isNone_iff_eq_none] at h
    rw [h]

/-- Members of one kind and one name that are not methods have one signature. -/
theorem signature_eq_of_kind (hkind : m.kind = n.kind) (hmethod : m.kind ≠ .method)
    (hname : m.name = n.name) : m.signature = n.signature := by
  unfold kind at hkind hmethod
  unfold signature
  cases hm : m.shape <;> cases hn : n.shape <;> simp_all

end Member

namespace ProxyUnit

open Member (isWritten)

/-- The members that are written into the proxy of an engine type, in order. -/
def written (catalog : Catalog) (engineType : String) : List Member :=
  (catalog.membersOf engineType).filter (isWritten (proxyName engineType))

variable {catalog : Catalog} {engineType : String} {m n : Member}

theorem flatMap_proxyCode (proxy : String) (ms : List Member) :
    ms.flatMap (Member.proxyCode proxy) =
      (ms.filter (isWritten proxy)).flatMap (Member.proxyCode proxy) := by
  induction ms with
  | nil => rfl
  | cons m ms ih =>
    rw [List.flatMap_cons, List.filter_cons, ih]
    split_ifs with h
    · rw [List.flatMap_cons]
    · rw [Member.proxyCode_of_not_isWritten (Bool.not_eq_true _ ▸ h), List.nil_append]

/-- Two written members have different signatures. -/
theorem pairwise_signature (catalog : Catalog) (engineType : String) :
    (written catalog engineType).Pairwise fun m n => m.signature ≠ n.signature := by
  have hnodup : ((catalog.membersOf engineType).map Member.signature).Nodup :=
    Member.nodup_signature_keepFirst [] _
  exact (List.pairwise_map.1 hnodup).filter _

/-- Members of one name are methods, or members of different kinds. -/
theorem pairwise_kind (catalog : Catalog) (engineType : String) :
    (written catalog engineType).Pairwise fun m n => m.name = n.name →
      m.kind ≠ n.kind ∨ (m.kind = .method ∧ n.kind = .method ∧ m.signature ≠ n.signature) := by
  refine (pairwise_signature catalog engineType).imp ?_
  intro m n hsignature hname
  by_cases hkind : m.kind = n.kind
  · by_cases hmethod : m.kind = .method
    · exact .inr ⟨hmethod, hkind ▸ hmethod, hsignature⟩
    · exact absurd (Member.signature_eq_of_kind hkind hmethod hname) hsignature
  · exact .inl hkind

/-- Names clash exactly where one name stands for members of different kinds. -/
theorem pairwise_method_iff (catalog : Catalog) (engineType : String) :
    ((written catalog engineType).Pairwise fun m n => m.name = n.name →
        m.kind = .method ∧ n.kind = .method) ↔
      (written catalog engineType).Pairwise fun m n => m.name = n.name → m.kind = n.kind := by
  constructor
  · intro h
    refine h.imp ?_
    intro m n hmethod hname
    rw [(hmethod hname).1, (hmethod hname).2]
  · intro h
    refine ((pairwise_kind catalog engineType).and h).imp ?_
    rintro m n ⟨hcases, hkind⟩ hname
    rcases hcases hname with hne | ⟨hm, hn, -⟩
    · exact absurd (hkind hname) hne
    · exact ⟨hm, hn⟩

theorem exists_of_mem_written (h : m ∈ written catalog engineType) :
    ∃ t ∈ catalog.chain engineType, m ∈ t.members ∧ m.isEligible = true := by
  obtain ⟨nearer, t, further, hchain, hm, heligible, -⟩ :=
    Catalog.exists_nearest (List.mem_filter.1 h).1
  exact ⟨t, by simp [hchain], hm, heligible⟩

/-- What the members of a proxy are called. The proxy writes one declaration for each of them,
under a name that it does not need itself. Of two members of one name both are methods with
different signatures, or their kinds differ; so names clash exactly where kinds differ, and they
do not where each name has one kind along the chain. -/
theorem written_names (catalog : Catalog) (engineType : String) :
    let proxy := proxyName engineType
    let members := written catalog engineType
    let NoClash := members.Pairwise fun m n => m.name = n.name → m.kind = .method ∧ n.kind = .method
    text catalog engineType = renderUnit (preamble engineType ++ wrapping engineType ++
      members.flatMap (Member.proxyCode proxy) ++ textOverride ++ containers) ∧
    (∀ m ∈ members, m.name ∉ Member.reservedInProxy ∧ m.name ≠ proxy ∧ m.isToString = false ∧
      ∃ code, m.declaration? = some code ∧ m.proxyCode proxy = m.leadIn ++ code ++ m.leadOut) ∧
    (members.Pairwise fun m n => m.name = n.name →
      m.kind ≠ n.kind ∨ (m.kind = .method ∧ n.kind = .method ∧ m.signature ≠ n.signature)) ∧
    (NoClash ↔ members.Pairwise fun m n => m.name = n.name → m.kind = n.kind) ∧
    ((∀ t ∈ catalog.chain engineType, ∀ u ∈ catalog.chain engineType, ∀ m ∈ t.members,
        ∀ n ∈ u.members, m.isEligible = true → n.isEligible = true → m.name = n.name →
          m.kind = n.kind) → NoClash) := by
  intro proxy members NoClash
  refine ⟨?_, ?_, pairwise_kind catalog engineType, pairwise_method_iff catalog engineType, ?_⟩
  · rw [text, flatMap_proxyCode]
    rfl
  · intro m hm
    have hwritten := (List.mem_filter.1 hm).2
    obtain ⟨hreserved, hproxy, htext, code, hcode⟩ := Member.isWritten_iff.1 hwritten
    exact ⟨hreserved, hproxy, htext, code, hcode, Member.proxyCode_of_isWritten hwritten hcode⟩
  · intro hkinds
    refine (pairwise_method_iff catalog engineType).2 (List.pairwise_of_forall_mem_list ?_)
    intro m hm n hn
    obtain ⟨t, ht, hmt, hme⟩ := exists_of_mem_written hm
    obtain ⟨u, hu, hnu, hne⟩ := exists_of_mem_written hn
    exact hkinds t ht u hu m hmt n hnu hme hne

/-- A property that hides a method of the base type is written beside it. -/
theorem written_hidingProperty :
    let value : Member := { name := "Value", shape := .property true false, type := "double" }
    let method : Member := { name := "Value", shape := .method [] [], type := "void" }
    let catalog := CatalogCall.applyAll {}
      [.addEngineType { name := "Range", members := [method] },
        .addEngineType { name := "Dial", base := some "Range", members := [value] }]
    ¬(written catalog "Dial").Pairwise fun m n => m.name = n.name →
      m.kind = .method ∧ n.kind = .method := by
  decide +kernel

end ProxyUnit

end ScriptBridge
