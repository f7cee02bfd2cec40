import Workflow.Markup.Graph

/-!
# Streams that break off

A token stream that breaks off has no token for its end.  Nothing is read from such a stream: every
part of a document leaves what is behind it in the stream, and behind the document only the end of
the stream is accepted.

The invariant is `Unending`, and the induction is on the depth that the reader may still descend:
one lemma a function says that it keeps the invariant if those it calls one level further down do.
-/

namespace Workflow

namespace Markup

namespace GraphReader

/-! ## The invariant -/

/-- A reader in whose stream there is no end left; at the end of the stream it is malformed. -/
structure Unending (k : GraphReader) : Prop where
  problem : k.problem = .malformed
  noEnd : ∀ token ∈ k.tokens, token.kind ≠ .streamEnd

/-- A reading that fails because the text is malformed, or else leaves no end in the stream. -/
def LeavesUnending {α : Type} (last : α → GraphReader) : Except Problem α → Prop
  | .error problem => problem = .malformed
  | .ok a => (last a).Unending

section Steps

variable {α β : Type} {k : GraphReader}

theorem LeavesUnending.bind
    {last : α → GraphReader}
    {last' : β → GraphReader}
    {x : Except Problem α}
    {f : α → Except Problem β}
    (hx : LeavesUnending last x)
    (hf : ∀ a, (last a).Unending → LeavesUnending last' (f a)) :
    LeavesUnending last' (x >>= f) := by
  cases x with
  | error problem => exact hx
  | ok a => exact hf a hx

/-- What fails in front of any reader of this kind fails behind it. -/
theorem LeavesUnending.bind_eq_error
    {last : α → GraphReader}
    {x : Except Problem α}
    {f : α → Except Problem β}
    (hx : LeavesUnending last x)
    (hf : ∀ a, (last a).Unending → f a = .error .malformed) :
    x >>= f = .error .malformed := by
  cases x with
  | error problem => exact congrArg Except.error hx
  | ok a => exact hf a hx

/-- The nodes and anchors of a reader do not matter. -/
theorem Unending.congr
    {k' : GraphReader}
    (h : k.Unending)
    (htokens : k'.tokens = k.tokens)
    (hproblem : k'.problem = k.problem) :
    k'.Unending :=
  ⟨hproblem.trans h.problem, htokens ▸ h.noEnd⟩

theorem Unending.drop
    (h : k.Unending) :
    k.drop.Unending :=
  ⟨h.problem, fun token htoken => h.noEnd token (List.mem_of_mem_tail htoken)⟩

theorem Unending.add
    (h : k.Unending)
    (anchor : Option Text)
    (node : Node) :
    (k.add anchor node).2.Unending :=
  h.congr rfl rfl

theorem Unending.put
    (h : k.Unending)
    (id : Nat)
    (node : Node) :
    (k.put id node).Unending :=
  h.congr rfl rfl

/-- Looking at the next token and going on. -/
theorem Unending.peek_bind
    {last : β → GraphReader}
    {f : Token → Except Problem β}
    (h : k.Unending)
    (hf : ∀ token, token.kind ≠ .streamEnd → LeavesUnending last (f token)) :
    LeavesUnending last (k.peek >>= f) := by
  rw [GraphReader.peek]
  split
  · exact h.problem
  case h_2 token tokens htokens => exact hf token (h.noEnd token (htokens ▸ List.mem_cons_self))

theorem Unending.peek_bind_eq_error
    {f : Token → Except Problem β}
    (h : k.Unending)
    (hf : ∀ token, token.kind ≠ .streamEnd → f token = .error .malformed) :
    k.peek >>= f = .error .malformed := by
  rw [GraphReader.peek]
  split
  · exact congrArg Except.error h.problem
  case h_2 token tokens htokens => exact hf token (h.noEnd token (htokens ▸ List.mem_cons_self))

theorem Unending.takeAnchor
    (h : k.Unending)
    (p : Properties) :
    LeavesUnending Prod.snd (k.takeAnchor p) := by
  refine h.peek_bind fun token _ => ?_
  split
  · exact h.drop
  · exact h

theorem Unending.takeTag
    (h : k.Unending)
    (p : Properties) :
    LeavesUnending Prod.snd (k.takeTag p) := by
  refine h.peek_bind fun token _ => ?_
  split
  · exact h.drop
  · exact h

theorem Unending.takeProperties
    (h : k.Unending) :
    LeavesUnending Prod.snd k.takeProperties := by
  refine (h.takeAnchor _).bind ?_
  rintro ⟨p, k⟩ (h : k.Unending)
  refine (h.takeTag p).bind ?_
  rintro ⟨p, k⟩ (h : k.Unending)
  dsimp only
  split
  · exact h.takeAnchor p
  · exact h

theorem Unending.expandTag
    (h : k.Unending)
    (tag : Option (Option Text × Text)) :
    LeavesUnending (fun _ => k) (k.expandTag tag) := by
  unfold GraphReader.expandTag
  split
  · exact h
  · exact h
  · split
    · exact h
    · rfl

theorem Unending.aliased
    (h : k.Unending)
    (name : Text) :
    LeavesUnending Prod.snd (k.aliased name) := by
  rw [GraphReader.aliased]
  split
  · exact h.drop
  · rfl

theorem Unending.bare
    (h : k.Unending)
    (p : Properties)
    (tag : Option Text) :
    LeavesUnending Prod.snd (k.bare p tag) := by
  rw [GraphReader.bare]
  split
  · exact h.add _ _
  · rfl

theorem Unending.takeComma
    (h : k.Unending)
    (first : Bool) :
    LeavesUnending id (k.takeComma first) := by
  rw [GraphReader.takeComma]
  split
  · exact h
  · refine h.peek_bind fun token _ => ?_
    split
    · exact h.drop
    · rfl

end Steps

/-! ## Nodes -/

/-- Whatever is read with so much room to descend leaves no end in the stream. -/
structure Endless (fuel : Nat) : Prop where
  node : ∀ {k : GraphReader} (inBlock flat : Bool), k.Unending →
    LeavesUnending Prod.snd (node inBlock flat fuel k)
  nodeOrAbsent : ∀ {k : GraphReader} (inBlock flat : Bool) (ends : TokenKind → Bool)
    (position : Nat), k.Unending →
    LeavesUnending Prod.snd (nodeOrAbsent inBlock flat ends position fuel k)
  valuePart : ∀ {k : GraphReader} (inBlock flat : Bool) (ends : TokenKind → Bool), k.Unending →
    LeavesUnending Prod.snd (valuePart inBlock flat ends fuel k)
  flowSequence : ∀ {k : GraphReader} (first : Bool), k.Unending →
    LeavesUnending (fun r => r.2.2) (flowSequence first fuel k)
  flowMapping : ∀ {k : GraphReader} (first : Bool), k.Unending →
    LeavesUnending (fun r => r.2.2) (flowMapping first fuel k)
  blockSequence : ∀ {k : GraphReader}, k.Unending →
    LeavesUnending (fun r => r.2.2) (blockSequence fuel k)
  flatSequence : ∀ {k : GraphReader}, k.Unending →
    LeavesUnending (fun r => r.2.2) (flatSequence fuel k)
  blockMapping : ∀ {k : GraphReader}, k.Unending →
    LeavesUnending (fun r => r.2.2) (blockMapping fuel k)

namespace Endless

variable {fuel : Nat} {k : GraphReader}

theorem node_succ
    (ih : Endless fuel)
    (inBlock flat : Bool)
    (h : k.Unending) :
    LeavesUnending Prod.snd (GraphReader.node inBlock flat (fuel + 1) k) := by
  rw [GraphReader.node]
  refine h.peek_bind fun token _ => ?_
  split
  · exact h.aliased _
  refine h.takeProperties.bind ?_
  rintro ⟨p, k⟩ (h : k.Unending)
  refine (h.expandTag p.tag).bind fun tag _ => ?_
  refine h.peek_bind fun token _ => ?_
  dsimp only
  split
  · rfl
  split
  · exact h.drop.add _ _
  · exact (ih.flowSequence true (h.drop.add _ _)).bind fun _ h => h.put _ _
  · exact (ih.flowMapping true (h.drop.add _ _)).bind fun _ h => h.put _ _
  · split
    · exact (ih.blockSequence (h.drop.add _ _)).bind fun _ h => h.put _ _
    · exact h.bare p tag
  · split
    · exact (ih.blockMapping (h.drop.add _ _)).bind fun _ h => h.put _ _
    · exact h.bare p tag
  · split
    · exact (ih.flatSequence (h.add _ _)).bind fun _ h => h.put _ _
    · exact h.bare p tag
  · exact h.bare p tag

theorem nodeOrAbsent_succ
    (ih : Endless fuel)
    (inBlock flat : Bool)
    (ends : TokenKind → Bool)
    (position : Nat)
    (h : k.Unending) :
    LeavesUnending Prod.snd (GraphReader.nodeOrAbsent inBlock flat ends position (fuel + 1) k) := by
  rw [GraphReader.nodeOrAbsent]
  refine h.peek_bind fun token _ => ?_
  split
  · exact h.add _ _
  · exact ih.node inBlock flat h

theorem valuePart_succ
    (ih : Endless fuel)
    (inBlock flat : Bool)
    (ends : TokenKind → Bool)
    (h : k.Unending) :
    LeavesUnending Prod.snd (GraphReader.valuePart inBlock flat ends (fuel + 1) k) := by
  rw [GraphReader.valuePart]
  refine h.peek_bind fun token _ => ?_
  split
  · exact ih.nodeOrAbsent inBlock flat ends _ h.drop
  · exact h.add _ _

theorem flowSequence_succ
    (ih : Endless fuel)
    (first : Bool)
    (h : k.Unending) :
    LeavesUnending (fun r => r.2.2) (GraphReader.flowSequence first (fuel + 1) k) := by
  rw [GraphReader.flowSequence]
  refine h.peek_bind fun token _ => ?_
  split
  · exact h.drop
  refine (h.takeComma first).bind fun k (h : k.Unending) => ?_
  refine h.peek_bind fun token _ => ?_
  split
  · exact h.drop
  · dsimp only [reserve]
    refine (ih.nodeOrAbsent _ _ _ _ (h.drop.add _ _)).bind ?_
    rintro ⟨key, k⟩ (h : k.Unending)
    refine (ih.valuePart _ _ _ h).bind ?_
    rintro ⟨value, k⟩ (h : k.Unending)
    refine h.peek_bind fun after _ => ?_
    exact (ih.flowSequence false (h.put _ _)).bind fun _ h => h
  · refine (ih.node _ _ h).bind ?_
    rintro ⟨id, k⟩ (h : k.Unending)
    exact (ih.flowSequence false h).bind fun _ h => h

theorem flowMapping_succ
    (ih : Endless fuel)
    (first : Bool)
    (h : k.Unending) :
    LeavesUnending (fun r => r.2.2) (GraphReader.flowMapping first (fuel + 1) k) := by
  rw [GraphReader.flowMapping]
  refine h.peek_bind fun token _ => ?_
  split
  · exact h.drop
  refine (h.takeComma first).bind fun k (h : k.Unending) => ?_
  refine h.peek_bind fun token _ => ?_
  split
  · exact h.drop
  · refine (ih.nodeOrAbsent _ _ _ _ h.drop).bind ?_
    rintro ⟨key, k⟩ (h : k.Unending)
    refine (ih.valuePart _ _ _ h).bind ?_
    rintro ⟨value, k⟩ (h : k.Unending)
    exact (ih.flowMapping false h).bind fun _ h => h
  · refine (ih.node _ _ h).bind ?_
    rintro ⟨key, k⟩ (h : k.Unending)
    refine h.peek_bind fun after _ => ?_
    dsimp only [absent]
    exact (ih.flowMapping false (h.add _ _)).bind fun _ h => h

theorem blockSequence_succ
    (ih : Endless fuel)
    (h : k.Unending) :
    LeavesUnending (fun r => r.2.2) (GraphReader.blockSequence (fuel + 1) k) := by
  rw [GraphReader.blockSequence]
  refine h.peek_bind fun token _ => ?_
  split
  · refine (ih.nodeOrAbsent _ _ _ _ h.drop).bind ?_
    rintro ⟨id, k⟩ (h : k.Unending)
    exact (ih.blockSequence h).bind fun _ h => h
  · exact h.drop
  · rfl

theorem flatSequence_succ
    (ih : Endless fuel)
    (h : k.Unending) :
    LeavesUnending (fun r => r.2.2) (GraphReader.flatSequence (fuel + 1) k) := by
  rw [GraphReader.flatSequence]
  refine h.peek_bind fun token _ => ?_
  split
  · refine (ih.nodeOrAbsent _ _ _ _ h.drop).bind ?_
    rintro ⟨id, k⟩ (h : k.Unending)
    exact (ih.flatSequence h).bind fun _ h => h
  · exact h

theorem blockMapping_succ
    (ih : Endless fuel)
    (h : k.Unending) :
    LeavesUnending (fun r => r.2.2) (GraphReader.blockMapping (fuel + 1) k) := by
  rw [GraphReader.blockMapping]
  refine h.peek_bind fun token _ => ?_
  split
  · refine (ih.nodeOrAbsent _ _ _ _ h.drop).bind ?_
    rintro ⟨key, k⟩ (h : k.Unending)
    refine (ih.valuePart _ _ _ h).bind ?_
    rintro ⟨value, k⟩ (h : k.Unending)
    exact (ih.blockMapping h).bind fun _ h => h
  · exact h.drop
  · rfl

end Endless

theorem endless
    (fuel : Nat) :
    Endless fuel := by
  induction fuel with
  | zero => exact ⟨fun _ _ _ => rfl, fun _ _ _ _ _ => rfl, fun _ _ _ _ => rfl, fun _ _ => rfl,
      fun _ _ => rfl, fun _ => rfl, fun _ => rfl, fun _ => rfl⟩
  | succ fuel ih => exact ⟨ih.node_succ, ih.nodeOrAbsent_succ, ih.valuePart_succ,
      ih.flowSequence_succ, ih.flowMapping_succ, ih.blockSequence_succ, ih.flatSequence_succ,
      ih.blockMapping_succ⟩

/-! ## Documents -/

section Documents

variable {k : GraphReader}

theorem Unending.directives
    (h : k.Unending)
    (versioned : Bool)
    (fuel : Nat) :
    LeavesUnending id (k.directives versioned fuel) := by
  induction fuel generalizing k versioned with
  | zero => rfl
  | succ fuel ih =>
    rw [GraphReader.directives]
    refine h.peek_bind fun token _ => ?_
    split
    · split
      · rfl
      · exact ih h.drop true
    · split
      · rfl
      · refine ih ?_ versioned
        exact h.drop.congr rfl rfl
    · exact ih h.drop versioned
    · exact h.congr rfl rfl

/-- Behind a document there is no end of the stream. -/
theorem Unending.finish
    (h : k.Unending)
    (fuel : Nat) :
    k.finish fuel = .error .malformed := by
  induction fuel generalizing k with
  | zero => rfl
  | succ fuel ih =>
    rw [GraphReader.finish]
    refine h.peek_bind_eq_error fun token hend => ?_
    split
    · exact ih h.drop
    case h_2 heq => exact absurd heq hend
    · have hhandles : Unending { k with handles := [] } := h.congr rfl rfl
      exact (hhandles.directives false fuel).bind_eq_error fun _ _ => rfl

/-- Nothing is read from a stream that breaks off. -/
theorem Unending.document
    (h : k.Unending)
    (fuel : Nat) :
    k.document fuel = .error .malformed := by
  have hfinish : ∀ r : Nat × GraphReader, r.2.Unending →
      (do r.2.finish fuel; pure (some (⟨r.2.nodes, r.1⟩ : Graph))) = .error .malformed := by
    intro r hr
    rw [hr.finish]
    rfl
  rw [GraphReader.document]
  refine h.peek_bind_eq_error fun token hend => ?_
  split
  case h_1 heq => exact absurd heq hend
  dsimp only
  split
  case h_1 | h_2 =>
    refine (h.directives false fuel).bind_eq_error fun k (h : k.Unending) => ?_
    refine h.peek_bind_eq_error fun marker _ => ?_
    split
    · refine h.drop.peek_bind_eq_error fun after _ => ?_
      exact ((endless fuel).nodeOrAbsent _ _ _ _ h.drop).bind_eq_error hfinish
    · rfl
  case h_3 =>
    have hhandles : Unending { k with handles := standardHandles } := h.congr rfl rfl
    exact ((endless fuel).node _ _ hhandles).bind_eq_error hfinish

end Documents

end GraphReader

/-- A stream that breaks off is no document. -/
theorem Graph.ofTokens_eq_error
    {stream : TokenStream}
    (hproblem : stream.problem = .malformed)
    (hend : ∀ token ∈ stream.tokens, token.kind ≠ .streamEnd) :
    Graph.ofTokens stream = .error .malformed :=
  GraphReader.Unending.document ⟨hproblem, hend⟩ _

end Markup

end Workflow
