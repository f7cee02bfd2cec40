import Mathlib.Data.List.Infix
import Mathlib.Data.List.Nodup
import Workflow.Service

/-!
# A service does not depend on its history

A service keeps the reverse adjacency of one document between requests.  Some requests make it
anew, some do not, and some end before they would.  What a service keeps always belongs to the
document that it has on record, and it is used only for a document with the same identity and
version.  As long as this pair tells the documents of a run apart, no answer depends on the requests
that came before.
-/

namespace Workflow

/-- What a service knows a document by. -/
def OpenDocument.key (d : OpenDocument) : Nat × Int := (d.identity, d.document.version)

namespace Service

/-- A request to a service. -/
inductive Request where
  | validation (d : OpenDocument)
  | scope (d : OpenDocument) (target : Reference) (current : Option Reference)
  | stateNames (d : OpenDocument) (offset : Int)
  | candidates (d : OpenDocument) (offset : Int)

/-- The document that a request is about. -/
def Request.opened : Request → OpenDocument
  | .validation d => d
  | .scope d _ _ => d
  | .stateNames d _ => d
  | .candidates d _ => d

/-- An answer to a request. -/
inductive Answer where
  | validation (found : Except Fault (List Diagnostic))
  | scope (found : Except Fault VariableScope)
  | stateNames (found : List Text)
  | candidates (found : Except Fault (Option Completion.Candidates))

/-- The answer to a request, and the service after it. -/
def respond (s : Service) : Request → Service × Answer
  | .validation d => ((s.validate d).1, .validation (s.validate d).2)
  | .scope d target current =>
    ((s.variableScope d target current).1, .scope (s.variableScope d target current).2)
  | .stateNames d offset => (s, .stateNames (s.stateNamesAt d.document offset))
  | .candidates d offset => ((s.variablesAt d offset).1, .candidates (s.variablesAt d offset).2)

/-- A service after some requests. -/
def after (s : Service) (requests : List Request) : Service :=
  requests.foldl (fun s request => (s.respond request).1) s

/-- The answers to requests that are made one after another. -/
def answers : Service → List Request → List Answer
  | _, [] => []
  | s, request :: requests => (s.respond request).2 :: answers (s.respond request).1 requests

/-- Identity and version tell the documents of some requests apart. -/
def Identified (requests : List Request) : Prop :=
  ∀ first ∈ requests, ∀ second ∈ requests,
    first.opened.key = second.opened.key → first.opened = second.opened

/-- It is enough that all documents of the requests stand in a list of documents with different
identities and versions. -/
theorem Identified.of_documents
    {requests : List Request} {documents : List OpenDocument}
    (hkeys : (documents.map OpenDocument.key).Nodup)
    (h : ∀ request ∈ requests, request.opened ∈ documents) :
    Identified requests := by
  intro first hfirst second hsecond hkey
  exact List.inj_on_of_nodup_map hkeys (h first hfirst) (h second hsecond) hkey

/-- What a service keeps after some requests: a workflow with its own reverse adjacency, which
belongs to a document that was asked about under the identity and the version on record. -/
structure Coherent (s : Service) (past : List Request) : Prop where
  built : s.snapshot = Snapshot.ofWorkflow s.snapshot.workflow
  recorded : ∀ key, s.resolved = some key → ∃ request ∈ past, request.opened.key = key ∧
    s.snapshot.workflow = request.opened.document.workflow

section Step

variable (s : Service)

/-- A request leaves the service as it was, or makes it keep the document of the request. -/
theorem respond_fst
    (request : Request) :
    (s.respond request).1 = s ∨ (s.respond request).1 = s.refresh request.opened := by
  cases request with
  | validation d =>
      dsimp only [respond, Request.opened]
      unfold validate
      split
      · split
        · exact Or.inr rfl
        · exact Or.inl rfl
      · exact Or.inl rfl
  | scope d target current => exact Or.inr rfl
  | stateNames d offset => exact Or.inl rfl
  | candidates d offset =>
      dsimp only [respond, Request.opened]
      unfold variablesAt
      split
      · exact Or.inl rfl
      · exact Or.inr rfl

/-- Making the snapshot anew changes no settings. -/
theorem refresh_settings
    (d : OpenDocument) :
    (s.refresh d).lenient = s.lenient ∧ (s.refresh d).schema = s.schema := by
  unfold refresh
  dsimp only
  split
  · exact ⟨rfl, rfl⟩
  · exact ⟨rfl, rfl⟩

/-- The answer to a request depends on the settings, and on what the service keeps for the document
of the request. -/
theorem respond_snd_congr
    {s s' : Service} {request : Request} (hlenient : s.lenient = s'.lenient)
    (hschema : s.schema = s'.schema)
    (hsnapshot : (s.refresh request.opened).snapshot = (s'.refresh request.opened).snapshot) :
    (s.respond request).2 = (s'.respond request).2 := by
  have hlenientFor : s.lenientFor = s'.lenientFor := by
    funext d
    rw [lenientFor, lenientFor, hlenient]
  cases request with
  | validation d =>
      dsimp only [respond]
      unfold validate
      split
      · split
        · have hsettings := s.refresh_settings d
          have hsettings' := s'.refresh_settings d
          dsimp only
          rw [lenientFor, lenientFor, hsettings.1, hsettings.2, hsettings'.1, hsettings'.2,
            hlenient, hschema]
        · rfl
      · rfl
  | scope d target current =>
      dsimp only [respond, variableScope, Request.opened] at hsnapshot ⊢
      rw [hsnapshot]
  | stateNames d offset =>
      dsimp only [respond]
      rw [stateNamesAt, stateNamesAt, hlenientFor]
  | candidates d offset =>
      dsimp only [respond, Request.opened] at hsnapshot ⊢
      unfold variablesAt
      split
      · rfl
      · dsimp only
        rw [hsnapshot]

/-- A request changes no settings. -/
theorem respond_settings
    (request : Request) :
    (s.respond request).1.lenient = s.lenient ∧ (s.respond request).1.schema = s.schema := by
  rcases s.respond_fst request with heq | heq
  · rw [heq]
    exact ⟨rfl, rfl⟩
  · rw [heq]
    exact s.refresh_settings request.opened

end Step

section Coherence

variable {s : Service} {past : List Request} {request : Request}

theorem coherent_new
    (lenient : Bool) (schema : Value) :
    (new lenient schema).Coherent [] where
  built := rfl
  recorded _ h := by cases h

theorem Coherent.mono
    (h : s.Coherent past) (request : Request) :
    s.Coherent (past ++ [request]) where
  built := h.built
  recorded key hkey := by
    obtain ⟨earlier, hearlier, hfacts⟩ := h.recorded key hkey
    exact ⟨earlier, List.mem_append_left _ hearlier, hfacts⟩

/-- One more request leaves a coherent service coherent. -/
theorem Coherent.respond
    (h : s.Coherent past) (request : Request) :
    (s.respond request).1.Coherent (past ++ [request]) := by
  rcases s.respond_fst request with heq | heq
  · rw [heq]
    exact h.mono request
  · rw [heq]
    unfold refresh
    dsimp only
    split
    · exact h.mono request
    · refine ⟨rfl, fun key hkey => ?_⟩
      rw [Option.some.injEq] at hkey
      exact ⟨request, by simp, hkey, rfl⟩

/-- For a document that is told apart from all earlier ones, a coherent service has the reverse
adjacency of this document at hand as soon as it is asked for. -/
theorem Coherent.snapshot_refresh
    (h : s.Coherent past) (hidentified : Identified (past ++ [request])) :
    (s.refresh request.opened).snapshot = Snapshot.ofWorkflow request.opened.document.workflow := by
  unfold refresh
  dsimp only
  split
  · next hknown =>
      rw [beq_iff_eq] at hknown
      obtain ⟨earlier, hearlier, hkey, hworkflow⟩ := h.recorded _ hknown
      have hsame := hidentified earlier (List.mem_append_left _ hearlier) request (by simp) hkey
      rw [h.built, hworkflow, hsame]
  · rfl

/-- Whatever the requests, a service is coherent after them. -/
theorem coherent_after
    (lenient : Bool) (schema : Value) (requests : List Request) :
    ((new lenient schema).after requests).Coherent requests := by
  induction requests using List.reverseRecOn with
  | nil => exact coherent_new lenient schema
  | append_singleton requests request ih =>
      rw [after, List.foldl_append]
      exact ih.respond request

/-- A coherent service answers further requests as new services do. -/
theorem answers_eq_map
    {lenient : Bool} {schema : Value} (requests : List Request) :
    ∀ {s : Service} {past : List Request}, s.Coherent past → s.lenient = lenient →
      s.schema = schema → Identified (past ++ requests) →
      s.answers requests =
        requests.map fun request => ((new lenient schema).respond request).2 := by
  induction requests with
  | nil =>
      intro s past _ _ _ _
      rfl
  | cons request requests ih =>
      intro s past hcoherent hlenient hschema hidentified
      rw [List.append_cons] at hidentified
      have hsettings := s.respond_settings request
      have hfirst : (s.respond request).2 = ((new lenient schema).respond request).2 := by
        refine respond_snd_congr hlenient hschema ?_
        rw [hcoherent.snapshot_refresh fun first hfirst second hsecond =>
          hidentified first (List.mem_append_left _ hfirst) second
            (List.mem_append_left _ hsecond)]
        rfl
      rw [answers, List.map_cons, hfirst,
        ih (hcoherent.respond request) (hsettings.1.trans hlenient) (hsettings.2.trans hschema)
          hidentified]

end Coherence

/-- A service that is asked about documents with an identity and version of their own answers each
request as a new service would, and after every part of the run it keeps a workflow with its own
reverse adjacency, which belongs to the document on record. -/
theorem history_independent
    (lenient : Bool) (schema : Value) {requests : List Request} (h : Identified requests) :
    (new lenient schema).answers requests =
        (requests.map fun request => ((new lenient schema).respond request).2) ∧
      ∀ past, past <+: requests → ((new lenient schema).after past).Coherent past :=
  ⟨answers_eq_map requests (coherent_new lenient schema) rfl rfl h,
    fun past _ => coherent_after lenient schema past⟩

/-- An open document of a text. -/
def opened (identity : Nat) (version : Int) (t : Text) : OpenDocument :=
  let root := match Document.treeOf .yaml t with
    | .ok (some root) => root
    | _ => none
  ⟨identity, t, .yaml, root, version⟩

/-- A text with a state that binds a variable on the way to another one. -/
def bindingText (name : Text) : Text :=
  "States:
 A:
  Type: Pass
  Assign:
   " ++ name ++ ": 1
  Next: B
 B:
  Type: Succeed
"

/-- Requests that go back and forth between two documents, one of which is edited on the way; the
other text is no object. -/
def interleaved : List Request :=
  [.scope (opened 0 0 (bindingText "x")) (.id "B") none,
    .validation (opened 1 0 "text"),
    .candidates (opened 0 1 (bindingText "y")) 40,
    .scope (opened 0 1 (bindingText "y")) (.path [.name "B"]) none,
    .candidates (opened 1 0 "text") 2,
    .validation (opened 0 0 (bindingText "x")),
    .stateNames (opened 0 1 (bindingText "y")) 51]

theorem history_independent_interleaved :
    (new false Tables.packaged).answers interleaved =
        (interleaved.map fun request => ((new false Tables.packaged).respond request).2) ∧
      ∀ past, past <+: interleaved →
        ((new false Tables.packaged).after past).Coherent past := by
  have hdocuments : ∀ request ∈ interleaved, request.opened ∈
      [opened 0 0 (bindingText "x"), opened 1 0 "text", opened 0 1 (bindingText "y")] := by
    simp [interleaved, Request.opened]
  exact history_independent false Tables.packaged (.of_documents (by decide) hdocuments)

end Service

end Workflow
