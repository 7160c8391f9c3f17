import ResourcePki.Proofs.Issuance.Courses

/-! What the signer is asked. A command asks it for certificates of its CA only, however often it
is tried: for keys that the CA has in use, and with the signing key that the issuer had before. -/

namespace ResourcePki

open ResourcePki.Action

namespace Signing

variable {P Q : Signing → Prop} {before middle after : List Signing}

/-- The list `after` is `before` with new signings in front, of which `P` holds. -/
def Added (P : Signing → Prop) (before after : List Signing) : Prop :=
  ∃ new, after = new ++ before ∧ ∀ g ∈ new, P g

theorem Added.refl (P : Signing → Prop) (l : List Signing) : Added P l l :=
  ⟨[], rfl, fun _ hg => (nomatch hg)⟩

theorem Added.of_eq (h : after = before) : Added P before after := h ▸ .refl P before

theorem Added.cons {g : Signing} (hg : P g) (l : List Signing) : Added P l (g :: l) :=
  ⟨[g], rfl, List.forall_mem_singleton.mpr hg⟩

theorem Added.trans (h : Added P before middle) (h' : Added P middle after) :
    Added P before after := by
  obtain ⟨new, rfl, hnew⟩ := h
  obtain ⟨new', rfl, hnew'⟩ := h'
  refine ⟨new' ++ new, (List.append_assoc ..).symm, fun g hg => ?_⟩
  rcases List.mem_append.mp hg with hg | hg
  · exact hnew' g hg
  · exact hnew g hg

theorem Added.imp (hPQ : ∀ g, P g → Q g) (h : Added P before after) : Added Q before after := by
  obtain ⟨new, hafter, hnew⟩ := h
  exact ⟨new, hafter, fun g hg => hPQ g (hnew g hg)⟩

end Signing

open Signing

namespace KeyRing

variable {r r' : KeyRing}

theorem signingKey?_face (r : KeyRing) : r.face.signingKey? = r.signingKey? :=
  signingKey?_of_map (f := (·.shell)) rfl (fun _ => rfl) (fun _ => rfl) fun _ => rfl

variable {q : ChildRequest} {signer : Signer} {now : Time} {signings signings' : List Signing}
  {answer : Except Error IncomingCertificate}

theorem Answered.face (h : Answered r q signer now signings answer r' signings') :
    r'.face = r.face := by
  cases h with
  | unable => rfl
  | refused => rfl
  | issued =>
    rw [face_replaceChild]
    rfl

theorem Answered.added (h : Answered r q signer now signings answer r' signings') :
    Added (fun g => r.signingKey? = some g.key ∧ g.template.subjectKey = q.subjectKey)
      signings signings' := by
  cases h with
  | unable => exact .refl _ signings
  | refused hkey _ => exact .cons ⟨hkey, rfl⟩ signings
  | issued hkey _ _ _ => exact .cons ⟨hkey, rfl⟩ signings

end KeyRing

namespace Certification

/-- All that is signed to bring certificates in line is signed with one key of the parent. -/
theorem align_added (terms : CertificationTerms) (c : Certification) :
    Added (fun g => c.parentKeys.signingKey? = some g.key ∧
      g.template.subjectKey ∈ c.child.subjectKeys) c.signings (align terms c).2.signings := by
  unfold align
  split
  · exact .refl _ c.signings
  · refine (certify_keep terms c.child.subjectKeys c
      (P := fun c' => c'.parentKeys.face = c.parentKeys.face ∧ Added _ c.signings c'.signings)
      ?_ ⟨rfl, .refl _ c.signings⟩).2
    rintro c' ski hski ⟨hface, hadded⟩
    obtain ⟨answer, hanswered, -⟩ := issue_answered terms c' ski
    refine ⟨hanswered.face.trans hface, hadded.trans (hanswered.added.imp ?_)⟩
    rintro g ⟨hkey, rfl⟩
    -- The ring is the one before as far as the choice of the signing key goes.
    rw [← KeyRing.signingKey?_face, hface, KeyRing.signingKey?_face] at hkey
    exact ⟨hkey, hski⟩

end Certification

namespace CaTree

/-- The CA under a number signs with a key. -/
def SignsWith (t : CaTree) (id : CaId) (key : String) : Prop :=
  ∃ ca r, t.get? id = some ca ∧ ca.keys? = some r ∧ r.signingKey? = some key

/-- The CA under a number uses a key, if there is one at all. -/
def Uses (t : CaTree) (id : CaId) (key : String) : Prop :=
  ∀ ca, t.get? id = some ca → key ∈ ca.subjectKeys

theorem insert_child {t u : CaTree} {ca : CertificateAuthority} {p : CaId}
    (h : t.insert ca = .ok u) (hp : ca.parent = some p) : t.get? ca.id = none ∧
      u.parent? ca.id = some p ∧
      ∃ parent, t.get? p = some parent ∧ u.get? p = some (parent.addChild ca.id) := by
  obtain ⟨hfree, -, -, hself, ⟨hnone, -⟩ | ⟨q, parent, hq, -, hparent, hget, -⟩⟩ := insert_ok h
  · cases hnone.symm.trans hp
  · obtain rfl := Option.some.inj (hq.symm.trans hp)
    exact ⟨hfree, (parent?_of_get? hself).trans hp, parent, hparent, hget⟩

end CaTree

/-- Who issues the certificates that a command may bring about. -/
def CaCommand.issuer? (c : CaCommand) (t : CaTree) : Option CaId :=
  match c.details with
  | .activateHostedCa _ parent => some parent
  | _ => t.parent? c.ca

/-- What the signer may be asked for a command. -/
structure CaCommand.MayAsk (c : CaCommand) (t : CaTree) (g : Signing) : Prop where
  issuer : ∃ p, c.issuer? t = some p ∧ t.SignsWith p g.key
  subject : t.Uses c.ca g.template.subjectKey

namespace Services

variable (s : Services) (timing : IssuanceTiming)

/-- An update of a CA has nothing signed, or what it takes to bring certificates in line; then the
tree has what came of it, even if not all could be signed. -/
inductive Signed (id : CaId) (t : Session Journal) : Session Journal → Prop
  | nothing {t' : Session Journal} (hsame : t'.memory.signings = t.memory.signings) :
      Signed id t t'
  | aligned {t' : Session Journal} {p : CaId} {parent ca : CertificateAuthority} {keys : KeyRing}
      {resources : ResourceSet} {c : Certification} (hca : t.work.tree.get? id = some ca)
      (hp : ca.parent = some p) (hne : p ≠ id) (hparent : t.work.tree.get? p = some parent)
      (hkeys : parent.keys? = some keys)
      (halign : (Certification.align (s.terms timing id resources)
        ⟨keys, ca, t.memory.signings⟩).2 = c)
      (hsignings : t'.memory.signings = c.signings)
      (htree : t'.work.tree = (t.work.tree.set p (parent.withKeys c.parentKeys)).set id c.child) :
      Signed id t t'

theorem updateIncoming_signed (id : CaId) (t : Session Journal) :
    s.Signed timing id t (s.updateIncoming timing id t).2 := by
  unfold updateIncoming
  refine bind_keep (.nothing rfl) fun ca t₁ hrequire => ?_
  obtain ⟨hca, rfl⟩ := require_ok hrequire
  cases hp : ca.parent with
  | none => exact .nothing rfl
  | some p =>
    refine bind_keep (.nothing rfl) fun parent t₂ hrequire' => ?_
    obtain ⟨hparent, rfl⟩ := require_ok hrequire'
    cases hheld : parent.certified with
    | none => exact .nothing rfl
    | some held =>
      obtain ⟨t₃, hrun, hwork, -, hmemory⟩ := certifiable_apply (s := s) ca t₂
      have hsame : t₃.memory.signings = t₂.memory.signings := by rw [hmemory]
      refine bind_keep (.nothing (by rw [hrun, hsame])) fun requested t₃' hrun' => ?_
      obtain ⟨-, rfl⟩ := Prod.mk.inj (hrun.symm.trans hrun')
      cases requested with
      | none => exact .nothing hsame
      | some requested =>
        dsimp only
        by_cases hne : p = id
        · rw [updatePair, UnitOfWork.updatePair, if_pos hne]
          exact .nothing hsame
        · obtain ⟨keys, hkeys⟩ := keys?_of_certified hheld
          obtain ⟨work, hpair, htree⟩ := updatePair_of_get? (s := t₃)
            (f := alignPair (s.terms timing id (requested.inter held))) hne
            (hwork ▸ hparent) (hwork ▸ hca)
          rw [alignPair_of_keys hkeys] at htree
          rw [hpair, alignPair_of_keys hkeys]
          rw [hwork] at htree
          exact .aligned hca hp hne hparent hkeys (by rw [← hsame]) rfl htree

/-- The creation of a CA has nothing signed, or what it takes to update the CA once it is there. -/
inductive SignedNew (id parent : CaId) (t : Session Journal) : Session Journal → Prop
  | nothing {t' : Session Journal} (hsame : t'.memory.signings = t.memory.signings) :
      SignedNew id parent t t'
  | inserted {t' t₀ : Session Journal} {ca : CertificateAuthority} (hid : ca.id = id)
      (hparent : ca.parent = some parent) (hins : t.work.tree.insert ca = .ok t₀.work.tree)
      (hsame : t₀.memory.signings = t.memory.signings) (h : s.Signed timing id t₀ t') :
      SignedNew id parent t t'

theorem activate_signed (id : CaId) (name : CaName) (parent : CaId) (t : Session Journal) :
    s.SignedNew timing id parent t (s.activate timing id name parent t).2 := by
  unfold activate
  refine bind_keep (.nothing rfl) fun existing t₁ hget => ?_
  obtain ⟨-, rfl⟩ := Prod.mk.inj hget
  cases existing with
  | some ca =>
    dsimp only
    split <;> exact .nothing rfl
  | none =>
    refine bind_keep (.nothing rfl) fun pca t₁ hrequire => ?_
    obtain ⟨-, rfl⟩ := require_ok hrequire
    refine bind_keep (.nothing rfl) fun keys t₁ hkeys => ?_
    obtain ⟨-, rfl⟩ := ofExcept_ok hkeys
    refine bind_keep (.nothing rfl) fun directory t₁ hdirectory => ?_
    obtain ⟨-, rfl⟩ := ofExcept_ok hdirectory
    refine bind_keep (.nothing rfl) fun pair t₂ hpair => ?_
    have hsame : t₂.memory.signings = t₁.memory.signings := by
      rw [← (Prod.mk.inj hpair).2]
    obtain ⟨ski, -, rfl, hwork, -⟩ := createKey_ok hpair
    refine bind_keep (.nothing hsame) fun _ t₃ hinsert => ?_
    have hins := Action.insert_ok hinsert
    rw [hwork] at hins
    have hsame₃ : t₃.memory.signings = t₁.memory.signings := by
      rw [← hsame, ← (Prod.mk.inj hinsert).2]
    refine .inserted rfl rfl hins hsame₃ ?_
    exact bind_keep (s.updateIncoming_signed timing id t₃) fun _ t₄ hrun =>
      (congrArg Prod.snd hrun) ▸ s.updateIncoming_signed timing id t₃

variable {s timing}

variable {id parent : CaId} {t t' t'' : Session Journal}

theorem Signed.of_same (h : s.Signed timing id t t') (hwork : t''.work = t'.work)
    (hmemory : t''.memory = t'.memory) : s.Signed timing id t t'' := by
  cases h with
  | nothing hsame => exact .nothing (by rw [hmemory, hsame])
  | aligned hca hp hne hparent hkeys halign hsignings htree =>
    exact .aligned hca hp hne hparent hkeys halign (by rw [hmemory, hsignings])
      (by rw [hwork, htree])

theorem SignedNew.of_same (h : s.SignedNew timing id parent t t') (hwork : t''.work = t'.work)
    (hmemory : t''.memory = t'.memory) : s.SignedNew timing id parent t t'' := by
  cases h with
  | nothing hsame => exact .nothing (by rw [hmemory, hsame])
  | inserted hid hparent hins hsame h =>
    exact .inserted hid hparent hins hsame (h.of_same hwork hmemory)

theorem Signed.added (h : s.Signed timing id t t') :
    Added (fun g => (∃ p, t.work.tree.parent? id = some p ∧ t.work.tree.SignsWith p g.key) ∧
      t.work.tree.Uses id g.template.subjectKey) t.memory.signings t'.memory.signings := by
  cases h with
  | nothing hsame => exact .of_eq hsame
  | aligned hca hp hne hparent hkeys halign hsignings htree =>
    rw [hsignings, ← halign]
    refine (Certification.align_added ..).imp ?_
    rintro g ⟨hkey, hsubject⟩
    have hlink := (CaTree.parent?_of_get? hca).trans hp
    refine ⟨⟨_, hlink, _, _, hparent, hkeys, hkey⟩, fun ca' hca' => ?_⟩
    obtain rfl := Option.some.inj (hca.symm.trans hca')
    exact hsubject

theorem SignedNew.added (h : s.SignedNew timing id parent t t') :
    Added (fun g => t.work.tree.SignsWith parent g.key ∧
      t.work.tree.Uses id g.template.subjectKey) t.memory.signings t'.memory.signings := by
  cases h with
  | nothing hsame => exact .of_eq hsame
  | inserted hid hparent hins hsame h =>
    subst hid
    obtain ⟨hfree, hlink, old, hold, hget⟩ := CaTree.insert_child hins hparent
    rw [← hsame]
    refine h.added.imp ?_
    -- The parent of the new CA has one child more now, and signs as it did before.
    rintro g ⟨⟨p, hp, ca, r, hca, hr, hkey⟩, -⟩
    obtain rfl := Option.some.inj (hlink.symm.trans hp)
    obtain rfl := Option.some.inj (hget.symm.trans hca)
    exact ⟨⟨old, r, hold, hr, hkey⟩, fun ca hca => by rw [hfree] at hca; cases hca⟩

end Services

namespace Journal

/-- From the journal `j` to `k` nothing was signed. -/
def SameSignings (j k : Journal) : Prop := k.signings = j.signings

instance : Std.Refl SameSignings := ⟨fun _ => rfl⟩

instance : IsTrans Journal SameSignings := ⟨fun _ _ _ h h' => Eq.trans h' h⟩

end Journal

namespace Handler

variable {s : Services} {policy : IssuancePolicy}

theorem noteEffect_same (step : Action Journal Bool) (t : Session Journal) :
    (noteEffect step t).2.work = (step t).2.work ∧
      (noteEffect step t).2.memory = (step t).2.memory := by
  refine bind_keep (Q := fun t' => t'.work = _ ∧ t'.memory = _) ⟨rfl, rfl⟩ fun b t' hrun => ?_
  rw [hrun]
  cases b <;> exact ⟨rfl, rfl⟩

/-- Certificates are signed to update a CA, which may be a new one, and for nothing else. -/
theorem forCommand_signed (s : Services) (policy : IssuancePolicy) (command : CaCommand)
    (t : Session Journal) :
    let t' := ((forCommand s policy command.type).handle command t).2
    (∃ parent, command.issuer? t.work.tree = some parent ∧
        s.SignedNew policy.timing command.ca parent t t') ∨
      (command.issuer? t.work.tree = t.work.tree.parent? command.ca ∧
        s.Signed policy.timing command.ca t t') := by
  obtain ⟨id, actor, details⟩ := command
  have hquiet : ∀ {a : Action Journal Unit}, Extends Journal.SameSignings a →
      s.Signed policy.timing id t (a t).2 := fun ha => .nothing (ha t).2
  cases details with
  | activateHostedCa name parent =>
    obtain ⟨hwork, hmemory⟩ := noteEffect_same (s.activate policy.timing id name parent) t
    have hsigned := s.activate_signed policy.timing id name parent t
    exact .inl ⟨parent, rfl, hsigned.of_same hwork hmemory⟩
  | updateAllIncoming =>
    obtain ⟨hwork, hmemory⟩ := noteEffect_same (s.updateIncoming policy.timing id) t
    exact .inr ⟨rfl, (s.updateIncoming_signed policy.timing id t).of_same hwork hmemory⟩
  | generateTrustAnchorRequest =>
    exact .inr ⟨rfl, hquiet (extends_generateRequest s id fun _ _ _ _ => rfl)⟩
  | processRevokedKey ski =>
    exact .inr ⟨rfl, hquiet (.bind (.update id _) fun _ => .setHadEffect)⟩
  | expireOutgoing now =>
    exact .inr ⟨rfl, hquiet (extends_noteEffect (extends_expireIssued id now))⟩
  | provisionPublisher handle request response =>
    exact .inr ⟨rfl, hquiet (extends_noteEffect (extends_registerPublisher _ id handle _))⟩
  | deletePublisher handle =>
    exact .inr ⟨rfl, hquiet (.bind (.update id _) fun _ => .setHadEffect)⟩

theorem forCommand_added (s : Services) (policy : IssuancePolicy) (command : CaCommand)
    (t : Session Journal) :
    Added (command.MayAsk t.work.tree) t.memory.signings
      ((forCommand s policy command.type).handle command t).2.memory.signings := by
  obtain ⟨parent, hissuer, h⟩ | ⟨hissuer, h⟩ := forCommand_signed s policy command t
  · exact h.added.imp fun g hg => ⟨⟨parent, hissuer, hg.1⟩, hg.2⟩
  · exact h.added.imp fun g hg => ⟨hissuer ▸ hg.1, hg.2⟩

end Handler

namespace Dispatcher

variable {s : Services} {policy : IssuancePolicy} {command : CaCommand}

theorem Handled.signings_checking {models : List InvariantModel} {t t' : Session Journal}
    {r : Except Error Unit} (h : Handled command (models.map Handler.invariants) t r t') :
    t'.memory.signings = t.memory.signings := by
  induction models generalizing t with
  | nil =>
    cases h
    rfl
  | cons m rest ih =>
    obtain ⟨t₁, ht₁, -, -, hmemory⟩ := Handler.invariants_handle m command t
    have hsame : t₁.memory.signings = t.memory.signings := by
      rw [hmemory]
      cases m <;> rfl
    cases h with
    | stop hhandle => cases hhandle.symm.trans ht₁
    | next hhandle h' =>
      cases hhandle.symm.trans ht₁
      exact (ih h').trans hsame

theorem Handled.added {t t' : Session Journal} {r : Except Error Unit}
    (h : Handled command (.forCommand s policy command.type :: checkingHandlers policy) t r t') :
    Added (command.MayAsk t.work.tree) t.memory.signings t'.memory.signings := by
  have hadded := Handler.forCommand_added s policy command t
  cases h with
  | stop hhandle =>
    rw [hhandle] at hadded
    exact hadded
  | next hhandle hrest =>
    rw [hhandle] at hadded
    rw [checkingHandlers_eq] at hrest
    exact hadded.trans (.of_eq hrest.signings_checking)

theorem Retried.added {tree : CaTree} {errors : List Error} {memory memory' : Journal}
    (h : Retried command (.forCommand s policy command.type :: checkingHandlers policy) tree errors
      memory memory') :
    Added (command.MayAsk tree) memory.signings memory'.signings := by
  induction h with
  | none => exact .refl ..
  | again hfailed _ _ ih => exact (Handled.added hfailed).trans ih

/-- Whatever comes of the attempts at a command, all that they had signed is what the command may
ask for. -/
theorem execute_standard_added (s : Services) (policy : IssuancePolicy) (retries : Nat)
    (command : CaCommand) (e : Engine Journal) :
    Added (command.MayAsk e.tree) e.memory.signings
      ((standard s policy retries).execute command e).2.memory.signings := by
  obtain ⟨errors, memory, r, t, hretried, -, hr, -, -, -, hmemory⟩ :=
    attempts_handled (d := standard s policy retries) throughWork_standard command 0 retries e
  rw [turn_standard] at hretried hr
  have hadded := (Retried.added hretried).trans (Handled.added hr)
  rw [← hmemory] at hadded
  exact hadded

end Dispatcher

end ResourcePki
