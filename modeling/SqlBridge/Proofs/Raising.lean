import SqlBridge.Proofs.Reading

/-!
# Which errors readers raise

A reader is described by the errors it can fail with on any tail of given tokens. The tokens matter
because an error may have to name one of them. Nothing but the parts of a reader raises its errors,
so the judgment of a reader is put together from the judgments of the parts. What all readers of
grammar raise are the two errors of syntax.
-/

namespace SqlBridge

/-- The errors of syntax: a clause is not what its grammar asks for, or a token cannot stand where
it stands. -/
inductive CompileError.OfSyntax : CompileError → Prop where
  | malformed (fault : Fault) : OfSyntax (.malformedClause fault)
  | unexpected (token : Token) : OfSyntax (.unexpectedToken token)

namespace Reader

variable {α β σ κ : Type} {ts : List Token} {E : CompileError → Prop}

/-- On every tail of the tokens `ts` the reader fails with errors in `E` only. -/
def Raises (ts : List Token) (E : CompileError → Prop) (r : Reader α) : Prop :=
  ∀ s, s <:+ ts → ∀ e, (r.run s).1 = .error e → E e

theorem Raises.mono {E' : CompileError → Prop} {r : Reader α} (h : Raises ts E r)
    (more : ∀ e, E e → E' e) : Raises ts E' r :=
  fun s tail e failed => more e (h s tail e failed)

theorem Raises.of_suffix {us : List Token} {r : Reader α} (h : Raises ts E r) (tail : us <:+ ts) :
    Raises us E r :=
  fun s inner => h s (inner.trans tail)

theorem Raises.pure {a : α} : Raises ts E (pure a : Reader α) := by
  intro s _ e failed
  cases failed

theorem Raises.fail {e : CompileError} (allowed : E e) : Raises ts E (fail e : Reader α) := by
  intro s _ e' failed
  cases failed
  exact allowed

theorem Raises.ofExcept {x : Except CompileError α} (allowed : ∀ e, x = .error e → E e) :
    Raises ts E (ofExcept x) := by
  intro s _ e failed
  rw [run_ofExcept] at failed
  exact allowed e failed

/-- The second reader runs on a tail of what the first one was given, with a value that the first
one can yield. -/
theorem Raises.bind_of {r : Reader α} {f : α → Reader β} (first : Raises ts E r)
    (second : ∀ s a rest, s <:+ ts → r.run s = (.ok a, rest) → Raises ts E (f a)) :
    Raises ts E (r >>= f) := by
  intro s tail e failed
  rw [run_bind] at failed
  have suffix := r.leaves_suffix s
  rcases outcome : r.run s with ⟨x | a, rest⟩
  · rw [outcome] at failed
    cases failed
    exact first s tail e (by rw [outcome])
  · rw [outcome, continueWith_ok] at failed
    rw [outcome] at suffix
    exact second s a rest tail outcome rest (suffix.trans tail) e failed

theorem Raises.bind {r : Reader α} {f : α → Reader β} (first : Raises ts E r)
    (second : ∀ a, Raises ts E (f a)) : Raises ts E (r >>= f) :=
  first.bind_of fun _ a _ _ _ => second a

/-- What the first reader does not raise comes from the second one, after the first one has
succeeded. -/
theorem Raises.passes {r : Reader α} {f : α → Reader β} {e : CompileError} (first : Raises ts E r)
    (other : ¬ E e) (failed : ((r >>= f).run ts).1 = .error e) :
    ∃ p a rest, ts = p ++ rest ∧ r.Reads p a rest ∧ ((f a).run rest).1 = .error e := by
  rw [run_bind] at failed
  rcases outcome : r.run ts with ⟨x | a, rest⟩
  · rw [outcome] at failed
    cases failed
    exact absurd (first ts List.suffix_rfl e (by rw [outcome])) other
  · rw [outcome, continueWith_ok] at failed
    obtain ⟨p, whole, reads⟩ := run_eq_ok_iff.mp outcome
    exact ⟨p, a, rest, whole, reads, failed⟩

theorem Raises.ite {c : Prop} [Decidable c] {r r' : Reader α} (left : c → Raises ts E r)
    (right : ¬ c → Raises ts E r') : Raises ts E (if c then r else r') := by
  split
  · exact left ‹_›
  · exact right ‹_›

/-! ### The next token -/

theorem Raises.peek : Raises ts E peek := by
  intro s _ e failed
  cases failed

theorem Raises.next : Raises ts E next := by
  intro s _ e failed
  cases failed

theorem Raises.atKeyword {keyword : String} : Raises ts E (atKeyword keyword) :=
  .bind .peek fun _ => .pure

theorem Raises.at? {token : Token} : Raises ts E (at? token) :=
  .bind .peek fun _ => .pure

theorem Raises.eatKeyword {keyword : String} : Raises ts E (eatKeyword keyword) :=
  .bind .atKeyword fun _ => .ite (fun _ => .bind .next fun _ => .pure) fun _ => .pure

theorem Raises.eat {token : Token} : Raises ts E (eat token) :=
  .bind .at? fun _ => .ite (fun _ => .bind .next fun _ => .pure) fun _ => .pure

section Syntax

variable (syntactic : ∀ e : CompileError, e.OfSyntax → E e)

include syntactic

theorem Raises.malformed {fault : Fault} :
    Raises ts E (Reader.fail (.malformedClause fault) : Reader α) :=
  .fail (syntactic _ (.malformed fault))

/-- What would come after a failure does not matter. -/
theorem Raises.malformed_bind {fault : Fault} {f : α → Reader β} :
    Raises ts E ((Reader.fail (.malformedClause fault) : Reader α) >>= f) := by
  intro s _ e failed
  cases failed
  exact syntactic _ (.malformed fault)

theorem Raises.unexpected {token : Token} :
    Raises ts E (Reader.fail (.unexpectedToken token) : Reader α) :=
  .fail (syntactic _ (.unexpected token))

theorem Raises.expectKeyword {keyword : String} : Raises ts E (expectKeyword keyword) :=
  .bind .eatKeyword fun _ => .ite (fun _ => .pure) fun _ => .bind .peek fun _ =>
    .malformed syntactic

theorem Raises.expect {token : Token} : Raises ts E (expect token) :=
  .bind .eat fun _ => .ite (fun _ => .pure) fun _ => .bind .peek fun _ => .malformed syntactic

theorem Raises.name : Raises ts E name := by
  refine .bind .next fun t => ?_
  split
  · exact .malformed syntactic
  · split
    · exact .pure
    · exact .unexpected syntactic

theorem Raises.value : Raises ts E value := by
  refine .bind .next fun t => ?_
  split
  · exact .malformed syntactic
  · exact .ite (fun _ => .pure) fun _ => .unexpected syntactic

/-- A value is one of the tokens. -/
theorem Raises.value_bind {f : Token → Reader β} (second : ∀ t ∈ ts, Raises ts E (f t)) :
    Raises ts E (Reader.value >>= f) := by
  refine .bind_of (.value syntactic) fun s t rest tail found => second t (tail.subset ?_)
  have read : (Reader.value >>= Pure.pure).run s = (.ok t, rest) := by rwa [bind_pure]
  obtain ⟨p, rfl, taken⟩ := run_eq_ok_iff.mp read
  obtain ⟨u, q, rfl, _, last⟩ := reads_value_bind.mp taken
  obtain ⟨_, rfl⟩ := reads_pure.mp last
  exact List.mem_append_left _ List.mem_cons_self

theorem Raises.finish : Raises ts E finish := by
  refine .bind .peek fun t => ?_
  cases t with
  | none => exact .pure
  | some token => exact .unexpected syntactic

theorem Raises.alias? : Raises ts E alias? := by
  refine .bind .eatKeyword fun found => .ite (fun _ => ?_) fun _ => .bind .peek fun t => ?_
  · exact .bind (.name syntactic) fun _ => .pure
  · split
    · exact .bind .next fun _ => .pure
    · exact .pure

end Syntax

/-! ### Loops and lists -/

/-- A loop raises what its bodies raise, and what the token at which it looks raises. -/
theorem Raises.loop {again : Token → Except CompileError (Option κ)} {body : σ → κ → Reader σ}
    (looks : ∀ t e, again t = .error e → E e) (each : ∀ s k, Raises ts E (body s k)) (s : σ) :
    Raises ts E (loop again body s) := by
  intro us tail e failed
  induction hn : us.length using Nat.strongRecOn generalizing us s e with
  | ind n ih =>
    cases us with
    | nil =>
      rw [run_loop_nil] at failed
      cases failed
    | cons t us =>
      rw [run_loop_cons] at failed
      rcases on : again t with x | _ | k
      · rw [on] at failed
        cases failed
        exact looks t e on
      · rw [on] at failed
        cases failed
      · rw [on] at failed
        have behind : us <:+ ts := (List.suffix_cons t us).trans tail
        have round : Raises us E (body s k >>= Reader.loop again body) := by
          refine .bind ((each s k).of_suffix behind) fun s' vs inner x failed => ?_
          have shorter : vs.length < n := by
            rw [← hn, List.length_cons]
            exact Nat.lt_succ_of_le inner.length_le
          exact ih vs.length shorter s' vs (inner.trans behind) x failed rfl
        exact round us List.suffix_rfl e failed

theorem Raises.separated {item : σ → Reader σ} (each : ∀ s, Raises ts E (item s)) (s : σ) :
    Raises ts E (separated item s) := by
  refine .bind (each s) fun s => .loop (fun t e failed => ?_) (fun s _ => each s) s
  cases failed

theorem Raises.list {item : Reader α} (each : Raises ts E item) : Raises ts E (list item) :=
  .separated (fun _ => .bind each fun _ => .pure) []

end Reader

end SqlBridge
