import ResourcePki.Proofs.Json.RoundTrips
import ResourcePki.CommandLine.Run

/-! A tree that is saved reads back as itself. What it is made of in the end are numbers and values
of types with forms of their own (`Leaf`): the tree comes back if these do. The lemmas follow the
types from certificates up, each for the parts of one record. -/

namespace ResourcePki

/-- What a saved tree is made of in the end, beside texts, bytes and names. -/
inductive Leaf where
  | number (n : Nat)
  | resources (r : ResourceSet)
  | time (t : Time)
  | validity (v : Validity)
  | uri (u : RsyncUri)
  | uuid (u : Uuid)
  | request (r : PublisherRequest)
  | response (r : RepositoryResponse)

/-- A number fits 64 bits; any other value comes back from its own form. -/
def Leaf.Reads : Leaf → Prop
  | number n => n < UInt64.size
  | resources r => ofJson? (toJson r) = some r
  | time t => ofJson? (toJson t) = some t
  | validity v => ofJson? (toJson v) = some v
  | uri u => ofJson? (toJson u) = some u
  | uuid u => ofJson? (toJson u) = some u
  | request r => ofJson? (toJson r) = some r
  | response r => ofJson? (toJson r) = some r

instance : DecidablePred Leaf.Reads
  | .number n => inferInstanceAs (Decidable (n < UInt64.size))
  | .resources r => inferInstanceAs (Decidable (ofJson? (toJson r) = some r))
  | .time t => inferInstanceAs (Decidable (ofJson? (toJson t) = some t))
  | .validity v => inferInstanceAs (Decidable (ofJson? (toJson v) = some v))
  | .uri u => inferInstanceAs (Decidable (ofJson? (toJson u) = some u))
  | .uuid u => inferInstanceAs (Decidable (ofJson? (toJson u) = some u))
  | .request r => inferInstanceAs (Decidable (ofJson? (toJson r) = some r))
  | .response r => inferInstanceAs (Decidable (ofJson? (toJson r) = some r))

/-- All leaves of a value are read back. -/
abbrev AllRead (leaves : List Leaf) : Prop := ∀ l ∈ leaves, l.Reads

namespace Leaf

theorem roundTrips_resources {r : ResourceSet} (h : (resources r).Reads) : RoundTrips r where
  printable := .obj (by simp [Json.IsPrintable.str])
  reads := h

theorem roundTrips_time {t : Time} (h : (time t).Reads) : RoundTrips t := ⟨.str _, h⟩

theorem roundTrips_validity {v : Validity} (h : (validity v).Reads) : RoundTrips v where
  printable := .obj (by simp [toJson, Json.IsPrintable.str])
  reads := h

theorem roundTrips_uri {u : RsyncUri} (h : (uri u).Reads) : RoundTrips u := ⟨.str _, h⟩

theorem roundTrips_uuid {u : Uuid} (h : (uuid u).Reads) : RoundTrips u := ⟨.str _, h⟩

theorem roundTrips_request {r : PublisherRequest} (h : (request r).Reads) : RoundTrips r where
  printable := by
    refine .obj ?_
    cases r.tag <;> simp [toJson, Json.IsPrintable.str, Json.IsPrintable.null]
  reads := h

theorem printable_info (i : RepositoryInfo) : (toJson i).IsPrintable := by
  refine .obj ?_
  cases i.notification <;> simp [toJson, Json.IsPrintable.str, Json.IsPrintable.null]

theorem roundTrips_response {r : RepositoryResponse} (h : (response r).Reads) :
    RoundTrips r where
  printable := by
    have hinfo := printable_info r.info
    refine .obj ?_
    cases r.tag <;> simp_all [toJson, Json.IsPrintable.str, Json.IsPrintable.null]
  reads := h

end Leaf

open Leaf

/-! Names -/

theorem OutgoingStatus.roundTrips (s : OutgoingStatus) : RoundTrips s :=
  ⟨.str _, Json.named?_nameOf (by decide) (by cases s <;> decide)⟩

theorem ObjectKind.roundTrips (k : ObjectKind) : RoundTrips k :=
  ⟨.str _, Json.named?_nameOf (by decide) (by cases k <;> decide)⟩

theorem PublicationStatus.roundTrips (s : PublicationStatus) : RoundTrips s :=
  ⟨.str _, Json.named?_nameOf (by decide) (by cases s <;> decide)⟩

theorem KeyStatus.roundTrips (s : KeyStatus) : RoundTrips s :=
  ⟨.str _, Json.named?_nameOf (by decide) (by cases s <;> decide)⟩

/-! Certificates -/

def SignedCertificate.leaves (c : SignedCertificate) : List Leaf :=
  [.number c.serial, .resources c.resources, .validity c.validity]

theorem SignedCertificate.roundTrips {c : SignedCertificate} (h : AllRead c.leaves) :
    RoundTrips c := by
  simp only [AllRead, leaves, List.forall_mem_cons] at h
  obtain ⟨hserial, hresources, hvalidity, -⟩ := h
  have hserial := roundTrips_nat hserial
  have hresources := roundTrips_resources hresources
  have hvalidity := roundTrips_validity hvalidity
  have hder := roundTrips_bytes c.der
  refine ⟨.obj ?_, ?_⟩
  · simp only [List.forall_mem_cons]
    exact ⟨hserial.printable, .str _, .str _, hresources.printable, hvalidity.printable,
      hder.printable, fun _ he => (nomatch he)⟩
  · refine Option.bind_eq_some_iff.mpr ⟨[some (toJson c.serial), some (toJson c.subjectName),
      some (toJson c.subjectKey), some (toJson c.resources), some (toJson c.validity),
      some (toJson c.der)], rfl, ?_⟩
    simp only [hserial.required, (roundTrips_string c.subjectName).required,
      (roundTrips_string c.subjectKey).required, hresources.required, hvalidity.required,
      hder.required, Option.bind_eq_bind, Option.bind_some]
    rfl

def IncomingCertificate.leaves (c : IncomingCertificate) : List Leaf :=
  c.certificate.leaves ++ [.uri c.publicationUri, .resources c.inherited]

theorem IncomingCertificate.roundTrips {c : IncomingCertificate} (h : AllRead c.leaves) :
    RoundTrips c := by
  simp only [AllRead, leaves, List.forall_mem_append, List.forall_mem_cons] at h
  obtain ⟨hcertificate, huri, hinherited, -⟩ := h
  have hcertificate := SignedCertificate.roundTrips hcertificate
  have huri := roundTrips_uri huri
  have hinherited := roundTrips_resources hinherited
  refine ⟨.obj ?_, ?_⟩
  · simp only [List.forall_mem_cons]
    exact ⟨hcertificate.printable, huri.printable, hinherited.printable, fun _ he => (nomatch he)⟩
  · refine Option.bind_eq_some_iff.mpr ⟨[some (toJson c.certificate),
      some (toJson c.publicationUri), some (toJson c.inherited)], rfl, ?_⟩
    simp only [hcertificate.required, huri.required, hinherited.required, Option.bind_eq_bind,
      Option.bind_some]
    rfl

def PublishedObject.leaves (o : PublishedObject) : List Leaf :=
  [.uri o.directory, .validity o.validity]

theorem PublishedObject.roundTrips {o : PublishedObject} (h : AllRead o.leaves) :
    RoundTrips o := by
  simp only [AllRead, leaves, List.forall_mem_cons] at h
  obtain ⟨hdirectory, hvalidity, -⟩ := h
  have hdirectory := roundTrips_uri hdirectory
  have hcontent := roundTrips_bytes o.content
  have hvalidity := roundTrips_validity hvalidity
  refine ⟨.obj ?_, ?_⟩
  · simp only [List.forall_mem_cons]
    exact ⟨.str _, hdirectory.printable, hcontent.printable, hvalidity.printable,
      o.status.roundTrips.printable, fun _ he => (nomatch he)⟩
  · refine Option.bind_eq_some_iff.mpr ⟨[some (toJson o.filename), some (toJson o.directory),
      some (toJson o.content), some (toJson o.validity), some (toJson o.status)], rfl, ?_⟩
    simp only [(roundTrips_string o.filename).required, hdirectory.required, hcontent.required,
      hvalidity.required, o.status.roundTrips.required, Option.bind_eq_bind, Option.bind_some]
    rfl

def Subject.leaves : Subject → List Leaf
  | .child id => [.number id]
  | .object _ => []

theorem Subject.roundTrips {s : Subject} (h : AllRead s.leaves) : RoundTrips s := by
  cases s with
  | child id =>
    have hid : RoundTrips id := roundTrips_nat (h _ (List.mem_singleton_self _))
    refine ⟨.obj (List.forall_mem_singleton.mpr hid.printable), ?_⟩
    change (ofJson? (toJson id)).map child = _
    rw [hid.reads, Option.map_some]
  | object kind =>
    refine ⟨.obj (List.forall_mem_singleton.mpr kind.roundTrips.printable), ?_⟩
    change (ofJson? (toJson kind)).map object = _
    rw [kind.roundTrips.reads, Option.map_some]

def OutgoingCertificate.leaves (c : OutgoingCertificate) : List Leaf :=
  c.certificate.leaves ++ c.subject.leaves ++ c.revocationTime.toList.map .time ++
    c.object.toList.flatMap (·.leaves) ++ c.publicationUri.toList.map .uri

theorem OutgoingCertificate.roundTrips {c : OutgoingCertificate} (h : AllRead c.leaves) :
    RoundTrips c := by
  simp only [AllRead, leaves, List.forall_mem_append, List.forall_mem_map, List.forall_mem_flatMap,
    Option.mem_toList] at h
  obtain ⟨⟨⟨⟨hcertificate, hsubject⟩, hrevocation⟩, hobject⟩, huri⟩ := h
  have hcertificate := SignedCertificate.roundTrips hcertificate
  have hsubject := Subject.roundTrips hsubject
  have hrevocation := fun t ht => roundTrips_time (hrevocation t ht)
  have hobject := fun o ho => PublishedObject.roundTrips (hobject o ho)
  have huri := fun u hu => roundTrips_uri (huri u hu)
  refine ⟨.obj ?_, ?_⟩
  · simp only [List.forall_mem_append, List.forall_mem_cons]
    exact ⟨⟨⟨⟨hcertificate.printable, hsubject.printable, c.status.roundTrips.printable,
      .bool _, fun _ he => (nomatch he)⟩, printable_entry? hrevocation⟩, printable_entry? hobject⟩,
      printable_entry? huri⟩
  · refine Option.bind_eq_some_iff.mpr ⟨[some (toJson c.certificate), some (toJson c.subject),
      some (toJson c.status), some (toJson c.embedded), c.revocationTime.map toJson,
      c.object.map toJson, c.publicationUri.map toJson], ?_, ?_⟩
    · cases hr : c.revocationTime <;> cases ho : c.object <;> cases hu : c.publicationUri <;>
        simp only [toJson, hr, ho, hu] <;> rfl
    · simp only [hcertificate.required, hsubject.required, c.status.roundTrips.required,
        (roundTrips_bool c.embedded).required, orElse_map hrevocation fun _ => Json.noConfusion,
        orElse_map hobject fun _ => Json.noConfusion, orElse_map huri fun _ => Json.noConfusion,
        Option.bind_eq_bind, Option.bind_some]
      rfl

/-! Keys -/

def KeyPair.leaves (k : KeyPair) : List Leaf :=
  k.incoming.toList.flatMap (·.leaves) ++ k.outgoing.flatMap (·.leaves) ++
    k.published.flatMap (·.leaves)

theorem KeyPair.roundTrips {k : KeyPair} (h : AllRead k.leaves) : RoundTrips k := by
  simp only [AllRead, leaves, List.forall_mem_append, List.forall_mem_flatMap,
    Option.mem_toList] at h
  obtain ⟨⟨hincoming, houtgoing⟩, hpublished⟩ := h
  have hincoming := fun c hc => IncomingCertificate.roundTrips (hincoming c hc)
  have houtgoing := roundTrips_list fun c hc => OutgoingCertificate.roundTrips (houtgoing c hc)
  have hpublished := roundTrips_list fun o ho => PublishedObject.roundTrips (hpublished o ho)
  refine ⟨.obj ?_, ?_⟩
  · simp only [List.forall_mem_append, List.forall_mem_cons]
    exact ⟨⟨⟨.str _, k.status.roundTrips.printable, fun _ he => (nomatch he)⟩,
      printable_entry? hincoming⟩, houtgoing.printable, hpublished.printable,
      fun _ he => (nomatch he)⟩
  · refine Option.bind_eq_some_iff.mpr ⟨[some (toJson k.ski), some (toJson k.status),
      k.incoming.map toJson, some (toJson k.outgoing), some (toJson k.published)], ?_, ?_⟩
    · cases hi : k.incoming <;> simp only [toJson, hi] <;> rfl
    · simp only [(roundTrips_string k.ski).required, k.status.roundTrips.required,
        orElse_map hincoming fun _ => Json.noConfusion, houtgoing.orElse, hpublished.orElse,
        Option.bind_eq_bind, Option.bind_some]
      rfl

def KeyRing.leaves (r : KeyRing) : List Leaf :=
  r.pairs.flatMap (·.leaves) ++ [.uri r.directory, .number r.nextSerial]

theorem KeyRing.roundTrips {r : KeyRing} (h : AllRead r.leaves) : RoundTrips r := by
  simp only [AllRead, leaves, List.forall_mem_append, List.forall_mem_flatMap,
    List.forall_mem_cons] at h
  obtain ⟨hpairs, hdirectory, hserial, -⟩ := h
  have hpairs := roundTrips_list fun k hk => KeyPair.roundTrips (hpairs k hk)
  have hdirectory := roundTrips_uri hdirectory
  have hserial := roundTrips_nat hserial
  refine ⟨.obj ?_, ?_⟩
  · simp only [List.forall_mem_cons]
    exact ⟨hpairs.printable, hdirectory.printable, .bool _, hserial.printable,
      fun _ he => (nomatch he)⟩
  · refine Option.bind_eq_some_iff.mpr ⟨[some (toJson r.pairs), some (toJson r.directory),
      some (toJson r.checkNeeded), some (toJson r.nextSerial)], rfl, ?_⟩
    simp only [hpairs.orElse, hdirectory.required, (roundTrips_bool r.checkNeeded).orElse,
      hserial.required, Option.bind_eq_bind, Option.bind_some]
    rfl

/-! Requests to the trust anchor -/

theorem CaIdentity.roundTrips {i : CaIdentity} (h : (Leaf.number i.id).Reads) : RoundTrips i := by
  have hid : RoundTrips i.id := roundTrips_nat h
  refine ⟨.obj ?_, ?_⟩
  · simp only [List.forall_mem_cons]
    exact ⟨hid.printable, .str _, fun _ he => (nomatch he)⟩
  · refine Option.bind_eq_some_iff.mpr ⟨[some (toJson i.id), some (toJson i.name)], rfl, ?_⟩
    simp only [hid.required, (roundTrips_string i.name).required, Option.bind_eq_bind,
      Option.bind_some]
    rfl

def SigningRequest.leaves (r : SigningRequest) : List Leaf :=
  [.number r.subject.id, .resources r.resources]

theorem SigningRequest.roundTrips {r : SigningRequest} (h : AllRead r.leaves) : RoundTrips r := by
  simp only [AllRead, leaves, List.forall_mem_cons] at h
  obtain ⟨hsubject, hresources, -⟩ := h
  have hsubject := CaIdentity.roundTrips hsubject
  have hresources := roundTrips_resources hresources
  refine ⟨.obj ?_, ?_⟩
  · simp only [List.forall_mem_cons]
    exact ⟨.str _, hsubject.printable, .str _, hresources.printable, fun _ he => (nomatch he)⟩
  · refine Option.bind_eq_some_iff.mpr ⟨[some (toJson r.requestingCa), some (toJson r.subject),
      some (toJson r.signingKey), some (toJson r.resources)], rfl, ?_⟩
    simp only [(roundTrips_string r.requestingCa).required, hsubject.required,
      (roundTrips_string r.signingKey).required, hresources.required, Option.bind_eq_bind,
      Option.bind_some]
    rfl

def TrustAnchorRequest.leaves (r : TrustAnchorRequest) : List Leaf :=
  [.uuid r.id, .time r.created] ++ r.requests.flatMap (·.leaves)

theorem TrustAnchorRequest.roundTrips {r : TrustAnchorRequest} (h : AllRead r.leaves) :
    RoundTrips r := by
  simp only [AllRead, leaves, List.forall_mem_append, List.forall_mem_cons,
    List.forall_mem_flatMap] at h
  obtain ⟨⟨hid, hcreated, -⟩, hrequests⟩ := h
  have hid := roundTrips_uuid hid
  have hcreated := roundTrips_time hcreated
  have hrequests := roundTrips_list fun q hq => SigningRequest.roundTrips (hrequests q hq)
  refine ⟨.obj ?_, ?_⟩
  · simp only [List.forall_mem_cons]
    exact ⟨hid.printable, hcreated.printable, hrequests.printable, fun _ he => (nomatch he)⟩
  · refine Option.bind_eq_some_iff.mpr ⟨[some (toJson r.id), some (toJson r.created),
      some (toJson r.requests)], rfl, ?_⟩
    simp only [hid.required, hcreated.required, hrequests.required, Option.bind_eq_bind,
      Option.bind_some]
    rfl

/-! Publisher repositories -/

def PublisherRepository.leaves (r : PublisherRepository) : List Leaf :=
  [.request r.request, .response r.response]

theorem PublisherRepository.roundTrips {r : PublisherRepository} (h : AllRead r.leaves) :
    RoundTrips r := by
  simp only [AllRead, leaves, List.forall_mem_cons] at h
  obtain ⟨hrequest, hresponse, -⟩ := h
  have hrequest := roundTrips_request hrequest
  have hresponse := roundTrips_response hresponse
  refine ⟨.obj ?_, ?_⟩
  · simp only [List.forall_mem_cons]
    exact ⟨hrequest.printable, hresponse.printable, fun _ he => (nomatch he)⟩
  · refine Option.bind_eq_some_iff.mpr
      ⟨[some (toJson r.request), some (toJson r.response)], rfl, ?_⟩
    simp only [hrequest.required, hresponse.required, Option.bind_eq_bind, Option.bind_some]
    rfl

abbrev Publishers := SortedMap PublisherHandle PublisherRepository

def Publishers.leaves (m : Publishers) : List Leaf :=
  m.entries.flatMap fun e => .uuid e.1 :: e.2.leaves

theorem Publishers.roundTrips {m : Publishers} (h : AllRead m.leaves) : RoundTrips m := by
  simp only [AllRead, leaves, List.forall_mem_flatMap, List.forall_mem_cons] at h
  have hvalues := fun e he => PublisherRepository.roundTrips (h e he).2
  refine ⟨.obj fun e he => ?_, ?_⟩
  · obtain ⟨f, hf, rfl⟩ := List.mem_map.mp he
    exact (hvalues f hf).printable
  · have hentries := mapM_entries Uuid.text Uuid.ofText? (fun e he => (h e he).1) hvalues
    refine Option.bind_eq_some_iff.mpr ⟨m.entries, hentries, ?_⟩
    rw [SortedMap.ofList_entries]
    rfl

/-! CAs -/

def CaKind.leaves : CaKind → List Leaf
  | .allResources keys pending => keys.leaves ++ pending.toList.flatMap (·.leaves)
  | .production keys => keys.leaves
  | .hosted keys => keys.leaves
  | .nonHosted _ publishers => Publishers.leaves publishers

theorem printable_withTag (tag kind : String) {j : Json} (h : j.IsPrintable) :
    (Json.withTag tag kind j).IsPrintable := by
  unfold Json.withTag
  cases h with
  | obj h => exact .obj (List.forall_mem_cons.mpr ⟨.str kind, h⟩)
  | null => exact .null
  | bool b => exact .bool b
  | int h => exact .int h
  | str s => exact .str s
  | arr h => exact .arr h

/-- The tag stands in front of the fields of a record, none of which has its name. -/
theorem CaKind.roundTrips {kind : CaKind} (h : AllRead kind.leaves) : RoundTrips kind := by
  cases kind with
  | allResources keys pending =>
    simp only [AllRead, leaves, List.forall_mem_append, List.forall_mem_flatMap,
      Option.mem_toList] at h
    have hkeys := KeyRing.roundTrips h.1
    have hpending := fun r hr => TrustAnchorRequest.roundTrips (h.2 r hr)
    refine ⟨printable_withTag _ _ (.obj ?_), ?_⟩
    · rw [List.forall_mem_cons]
      exact ⟨hkeys.printable, printable_entry? hpending⟩
    · refine Option.bind_eq_some_iff.mpr ⟨("all_resources", .obj
        (("keys", toJson keys) :: Json.entry? "upstream_request" pending)), ?_, ?_⟩
      · cases pending <;> rfl
      · refine Option.bind_eq_some_iff.mpr ⟨.allResources, rfl, ?_⟩
        refine Option.bind_eq_some_iff.mpr ⟨[some (toJson keys), pending.map toJson], ?_, ?_⟩
        · cases pending <;> rfl
        · simp only [hkeys.required, orElse_map hpending fun _ => Json.noConfusion,
            Option.bind_eq_bind, Option.bind_some]
          rfl
  | production keys =>
    have hkeys : RoundTrips keys := KeyRing.roundTrips h
    refine ⟨printable_withTag _ _ hkeys.printable, ?_⟩
    change (ofJson? (toJson keys)).map production = _
    rw [hkeys.reads, Option.map_some]
  | hosted keys =>
    have hkeys : RoundTrips keys := KeyRing.roundTrips h
    refine ⟨printable_withTag _ _ hkeys.printable, ?_⟩
    change (ofJson? (toJson keys)).map hosted = _
    rw [hkeys.reads, Option.map_some]
  | nonHosted publicKeys publishers =>
    have hpublicKeys := roundTrips_list fun key (_ : key ∈ publicKeys) => roundTrips_string key
    have hpublishers := Publishers.roundTrips h
    refine ⟨printable_withTag _ _ (.obj ?_), ?_⟩
    · simp only [List.forall_mem_cons]
      exact ⟨hpublicKeys.printable, hpublishers.printable, fun _ he => (nomatch he)⟩
    · refine Option.bind_eq_some_iff.mpr ⟨("non_hosted", .obj [("public_keys", toJson publicKeys),
        ("publisher_repositories", toJson publishers)]), rfl, ?_⟩
      refine Option.bind_eq_some_iff.mpr ⟨.nonHosted, rfl, ?_⟩
      refine Option.bind_eq_some_iff.mpr
        ⟨[some (toJson publicKeys), some (toJson publishers)], rfl, ?_⟩
      simp only [hpublicKeys.orElse, hpublishers.orElse, Option.bind_eq_bind, Option.bind_some]
      rfl

theorem CaIds.ofIds_toList (s : CaIds) : ofIds s.toList = s := by
  rw [ofIds, toList, SortedMap.keys, List.foldl_map]
  exact SortedMap.ofList_entries s

theorem CaIds.roundTrips {s : CaIds} (h : AllRead (s.toList.map .number)) : RoundTrips s := by
  have hlist : RoundTrips s.toList :=
    roundTrips_list fun id hid => roundTrips_nat (List.forall_mem_map.mp h id hid)
  refine ⟨hlist.printable, ?_⟩
  change (ofJson? (toJson s.toList)).map ofIds = some s
  rw [hlist.reads, Option.map_some, ofIds_toList]

def CertificateAuthority.leaves (ca : CertificateAuthority) : List Leaf :=
  [.number ca.id] ++ ca.parent.toList.map .number ++ ca.children.toList.map .number ++
    ca.kind.leaves

theorem CertificateAuthority.roundTrips {ca : CertificateAuthority} (h : AllRead ca.leaves) :
    RoundTrips ca := by
  simp only [AllRead, leaves, List.forall_mem_append, List.forall_mem_singleton] at h
  obtain ⟨⟨⟨hid, hparent⟩, hchildren⟩, hkind⟩ := h
  have hid : RoundTrips ca.id := roundTrips_nat hid
  have hparent : ∀ p ∈ ca.parent, RoundTrips p := fun p hp =>
    roundTrips_nat (List.forall_mem_map.mp hparent p (Option.mem_toList.mpr hp))
  have hchildren := CaIds.roundTrips hchildren
  have hkind := CaKind.roundTrips hkind
  refine ⟨.obj ?_, ?_⟩
  · simp only [List.forall_mem_append, List.forall_mem_cons]
    exact ⟨⟨⟨hid.printable, .str _, fun _ he => (nomatch he)⟩, printable_entry? hparent⟩,
      hchildren.printable, hkind.printable, fun _ he => (nomatch he)⟩
  · refine Option.bind_eq_some_iff.mpr ⟨[some (toJson ca.id), some (toJson ca.name),
      ca.parent.map toJson, some (toJson ca.children), some (toJson ca.kind)], ?_, ?_⟩
    · cases hp : ca.parent <;> simp only [toJson, hp] <;> rfl
    · simp only [hid.required, (roundTrips_string ca.name).required,
        orElse_map hparent fun _ => Json.noConfusion, hchildren.orElse, hkind.required,
        Option.bind_eq_bind, Option.bind_some]
      rfl

namespace CaTree

def leaves (t : CaTree) : List Leaf :=
  (t.cas.entries.flatMap fun e => .number e.1 :: e.2.leaves) ++ [.number t.nextId]

theorem roundTrips_cas {t : CaTree} (h : AllRead t.leaves) : RoundTrips t.cas := by
  simp only [AllRead, leaves, List.forall_mem_append, List.forall_mem_flatMap,
    List.forall_mem_cons] at h
  have hvalues := fun e he => CertificateAuthority.roundTrips (h.1 e he).2
  refine ⟨.obj fun e he => ?_, ?_⟩
  · obtain ⟨f, hf, rfl⟩ := List.mem_map.mp he
    exact (hvalues f hf).printable
  · have hentries := mapM_entries toString Json.naturalKey?
      (fun e he => Json.naturalKey?_toString (h.1 e he).1) hvalues
    refine Option.bind_eq_some_iff.mpr ⟨t.cas.entries, hentries, ?_⟩
    rw [SortedMap.ofList_entries]
    rfl

theorem roundTrips {t : CaTree} (h : AllRead t.leaves) : RoundTrips t := by
  have hcas := roundTrips_cas h
  have hnext : RoundTrips t.nextId :=
    roundTrips_nat (h _ (List.mem_append_right _ (List.mem_singleton_self _)))
  refine ⟨.obj ?_, ?_⟩
  · simp only [List.forall_mem_cons]
    exact ⟨hcas.printable, hnext.printable, fun _ he => (nomatch he)⟩
  · refine Option.bind_eq_some_iff.mpr ⟨[some (toJson t.cas), some (toJson t.nextId)], rfl, ?_⟩
    simp only [hcas.required, hnext.required, Option.bind_eq_bind, Option.bind_some]
    rfl

/-- A tree comes back from its JSON, and from a file with the text of that. -/
theorem saved_reads_back {t : CaTree} (h : AllRead t.leaves) (path : String) :
    ofJson? (toJson t) = some t ∧
      CommandLine.treeOf path (some (toJson t).text.toUTF8) = .ok t := by
  have ht := roundTrips h
  have hutf8 : String.fromUTF8? (toJson t).text.toUTF8 = some (toJson t).text := by
    have hvalid : (toJson t).text.toUTF8.IsValidUTF8 := (toJson t).text.isValidUTF8
    rw [String.fromUTF8?, dif_pos hvalid]
    rfl
  refine ⟨ht.reads, ?_⟩
  rw [CommandLine.treeOf, Option.bind_some, hutf8]
  dsimp only
  rw [ht.ofText?]

end CaTree

/-! A tree with CAs of all four kinds -/

namespace Archive

def directory : RsyncUri := ⟨"rsync://repository/issuer/"⟩

def year : Validity := ⟨⟨0⟩, Time.addWeeks ⟨0⟩ 52⟩

def asns : ResourceSet := { asn := .ofBlock ⟨64500, 64507, by decide⟩ }

def certificate (key : String) : SignedCertificate where
  serial := 7
  subjectName := "CN=\"" ++ key ++ "\""
  subjectKey := key
  resources := asns
  validity := year
  der := [0, 127, 255, 10]

def object (status : PublicationStatus) : PublishedObject where
  filename := "object"
  directory := directory
  content := [1, 2]
  validity := year
  status := status

def expired : OutgoingCertificate where
  certificate := certificate "U"
  subject := .object .manifest
  status := .expired
  embedded := true

def revoked : OutgoingCertificate where
  certificate := certificate "V"
  subject := .child 3
  status := .revoked
  embedded := false
  revocationTime := some ⟨1⟩
  object := some (object .toBeWithdrawn)
  publicationUri := some directory

def pair (ski : String) (status : KeyStatus) : KeyPair where
  ski := ski
  status := status
  incoming := if status = .current then some ⟨certificate ski, directory, ∅⟩ else none
  outgoing := [expired, revoked]
  published := [object .published]

def keys : KeyRing where
  pairs := [pair "R" .old, pair "S" .current, pair "T" .new]
  directory := directory
  checkNeeded := true
  nextSerial := 9

def request : TrustAnchorRequest :=
  .ofChildren ⟨11⟩ ⟨2⟩ "CN=root" "S" .all [⟨2, "CN=production"⟩]

def repository : PublisherRepository where
  request := ⟨"AA==", ⟨"publisher"⟩, none⟩
  response := ⟨"AQ==", ⟨"publisher"⟩, ⟨"https://service/"⟩, ⟨directory, none⟩, some "tag"⟩

def tree : CaTree where
  cas := .ofList [
    (1, { id := 1, name := "CN=root", children := .ofIds [2],
          kind := .allResources keys (some request) }),
    (2, { id := 2, name := "CN=production", parent := some 1, children := .ofIds [3, 4],
          kind := .production keys }),
    (3, { id := 3, name := "CN=hosted", parent := some 2, kind := .hosted keys }),
    (4, { id := 4, name := "CN=delegated", parent := some 2,
          kind := .nonHosted ["W"] (.ofList [(⟨12⟩, repository)]) })]
  nextId := 5

theorem saved_reads_back_in_archive : AllRead tree.leaves ∧ ofJson? (toJson tree) = some tree ∧
    CommandLine.treeOf "tree.json" (some (toJson tree).text.toUTF8) = .ok tree := by
  have hread : AllRead tree.leaves := by decide +kernel
  exact ⟨hread, CaTree.saved_reads_back hread "tree.json"⟩

end Archive

end ResourcePki
