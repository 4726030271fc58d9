import SqlBridge.Proofs.Descriptor.Settings
import SqlBridge.Proofs.Statement.Place

/-!
# Two compilations side by side

Two statements may differ in tokens that stand where values are expected. If tokens opposite each
other give the same value, each in its context, and parentheses may nest equally deep, then both
statements are read in the same steps: both fail, and for the same reason unless tokens differ, or
both have descriptors, which differ in nothing but what the settings decide.
-/

namespace SqlBridge

open Place

/-- Which tokens may stand opposite each other in two statements. -/
structure Pairing where
  /-- The token may be the same in both. -/
  keeps : Token → Prop
  /-- The tokens may differ where a value is expected. -/
  swaps : Token → Token → Prop
  isValue : ∀ {t u}, swaps t u → t.isValue = true ∧ u.isValue = true

namespace Pairing

variable {P : Pairing} {s s' e : Place} {t u : Token} {ts us : List Token}

def Loose (P : Pairing) : Prop :=
  ∃ t u, P.swaps t u

/-- The tokens may stand opposite each other as values. -/
def Paired (P : Pairing) (t u : Token) : Prop :=
  (P.keeps t ∧ t = u) ∨ P.swaps t u

/-- The tokens of two statements stand opposite each other, the first ones in the given place. -/
inductive Aligned (P : Pairing) : Place → List Token → List Token → Prop where
  | nil {s : Place} : Aligned P s [] []
  | same {s : Place} {t : Token} {ts us : List Token} (keeps : P.keeps t)
      (others : Aligned P (s.next t) ts us) : Aligned P s (t :: ts) (t :: us)
  | swap {s : Place} {t u : Token} {ts us : List Token} (holds : s.holdsValue = true)
      (swaps : P.swaps t u) (others : Aligned P (s.next t) ts us) : Aligned P s (t :: ts) (u :: us)

/-- Tokens that are paired give the same values in two contexts. -/
structure Fits (P : Pairing) (ctx ctx' : Context) : Prop where
  depth : ctx'.settings.maxPredicateDepth = ctx.settings.maxPredicateDepth
  valueOf : ∀ {t u}, P.Paired t u → ctx'.params.valueOf u = ctx.params.valueOf t

theorem Aligned.cases_of_free (free : s.holdsValue = false) (h : P.Aligned s ts us) :
    (ts = [] ∧ us = []) ∨ ∃ t ts' us', ts = t :: ts' ∧ us = t :: us' ∧ P.keeps t ∧
      P.Aligned (s.next t) ts' us' := by
  cases h with
  | nil => exact .inl ⟨rfl, rfl⟩
  | same keeps others => exact .inr ⟨_, _, _, rfl, rfl, keeps, others⟩
  | swap holds => simp [free] at holds

theorem Aligned.head?_eq (h : P.Aligned s ts us) : ts.head? = us.head? ∨ P.Loose := by
  cases h with
  | nil => exact .inl rfl
  | same => exact .inl rfl
  | swap _ swaps => exact .inr ⟨_, _, swaps⟩

theorem Aligned.head?_eq_of_free (free : s.holdsValue = false) (h : P.Aligned s ts us) :
    ts.head? = us.head? := by
  rcases h.cases_of_free free with ⟨rfl, rfl⟩ | ⟨_, _, _, rfl, rfl, _, _⟩ <;> rfl

/-- Tokens that are no values are never opposite others. -/
theorem Aligned.head?_eq_iff (plain : t.isValue = false) (h : P.Aligned s ts us) :
    ts.head? = some t ↔ us.head? = some t := by
  cases h with
  | nil => exact Iff.rfl
  | same => exact Iff.rfl
  | swap _ swaps =>
    obtain ⟨first, second⟩ := P.isValue swaps
    constructor <;> rintro ⟨rfl⟩ <;> simp_all

theorem Aligned.tail (h : P.Aligned s ts us) (first : ts.head? = some t) :
    P.Aligned (s.next t) ts.tail us.tail := by
  cases h with
  | nil => cases first
  | same _ others => cases first; exact others
  | swap _ _ others => cases first; exact others

/-! ### Outcomes -/

section Outcomes

variable {α β γ δ κ σ τ : Type}

/-- Two readers fail, for the same reason unless tokens may differ, or they yield values in relation
and leave tokens that stand opposite each other. The relation also says in which place these are. -/
inductive Outcome (P : Pairing) (post : α → β → Place → Prop) :
    Except CompileError α × List Token → Except CompileError β × List Token → Prop where
  | error {x y : CompileError} {ts us : List Token} (reason : x = y ∨ P.Loose) :
      Outcome P post (.error x, ts) (.error y, us)
  | ok {a : α} {b : β} {s : Place} {ts us : List Token} (related : post a b s)
      (rest : P.Aligned s ts us) : Outcome P post (.ok a, ts) (.ok b, us)

/-- From a place on two readers come to the same outcome. -/
structure Agree (P : Pairing) (s : Place) (r : Reader α) (r' : Reader β)
    (post : α → β → Place → Prop) : Prop where
  outcome : ∀ {ts us}, P.Aligned s ts us → P.Outcome post (r.run ts) (r'.run us)

/-- A reader yields the same for both statements and leads from one place to another. -/
def Passes (P : Pairing) (s : Place) (r : Reader α) (s' : Place) : Prop :=
  P.Agree s r r fun a b e => a = b ∧ e = s'

variable {r : Reader α} {r' : Reader β} {f : α → Reader γ} {f' : β → Reader δ}
  {mid : α → β → Place → Prop} {post : γ → δ → Place → Prop}

theorem Outcome.bind {x : Except CompileError α × List Token}
    {y : Except CompileError β × List Token} (first : P.Outcome mid x y)
    (next : ∀ {a b e}, mid a b e → P.Agree e (f a) (f' b) post) :
    P.Outcome post (Reader.continueWith f x) (Reader.continueWith f' y) := by
  cases first with
  | error reason => exact .error reason
  | ok related rest => exact (next related).outcome rest

theorem Outcome.mono {other : α → β → Place → Prop} {x : Except CompileError α × List Token}
    {y : Except CompileError β × List Token} (h : P.Outcome mid x y)
    (weaker : ∀ {a b e}, mid a b e → other a b e) : P.Outcome other x y := by
  cases h with
  | error reason => exact .error reason
  | ok related rest => exact .ok (weaker related) rest

theorem Agree.bind (first : P.Agree s r r' mid)
    (next : ∀ {a b e}, mid a b e → P.Agree e (f a) (f' b) post) :
    P.Agree s (r >>= f) (r' >>= f') post where
  outcome h := (first.outcome h).bind next

theorem Passes.bind {r : Reader α} {f : α → Reader γ} {f' : α → Reader δ} (first : P.Passes s r s')
    (next : ∀ a, P.Agree s' (f a) (f' a) post) : P.Agree s (r >>= f) (r >>= f') post := by
  refine Agree.bind first ?_
  rintro a _ _ ⟨rfl, rfl⟩
  exact next a

theorem Agree.pure {c : γ} {d : δ} (related : post c d s) :
    P.Agree s (pure c) (pure d) post where
  outcome h := .ok related h

theorem Agree.fail {x : CompileError} :
    P.Agree s (.fail x : Reader γ) (.fail x : Reader δ) post where
  outcome _ := .error (.inl rfl)

theorem Agree.fail_bind {x : CompileError} {f : α → Reader γ} {f' : β → Reader δ} :
    P.Agree s (.fail x >>= f) (.fail x >>= f') post where
  outcome _ := .error (.inl rfl)

theorem Agree.ofExcept {x : Except CompileError γ} {post : γ → γ → Place → Prop}
    (related : ∀ c, post c c s) : P.Agree s (.ofExcept x) (.ofExcept x) post := by
  cases x with
  | error e => exact .fail
  | ok c => exact .pure (related c)

theorem Agree.mono {other : α → β → Place → Prop} (h : P.Agree s r r' mid)
    (weaker : ∀ {a b e}, mid a b e → other a b e) : P.Agree s r r' other where
  outcome aligned := (h.outcome aligned).mono weaker

theorem Agree.ite {c : Prop} [Decidable c] {r₁ r₂ : Reader γ} {r₁' r₂' : Reader δ}
    (yes : c → P.Agree s r₁ r₁' post) (no : ¬ c → P.Agree s r₂ r₂' post) :
    P.Agree s (if c then r₁ else r₂) (if c then r₁' else r₂') post := by
  split
  · exact yes ‹_›
  · exact no ‹_›

/-! ### Single tokens -/

/-- The next token is left, so what is read then starts with it. -/
theorem Agree.peek_bind {f : Option Token → Reader γ} {f' : Option Token → Reader δ}
    (free : s.holdsValue = false)
    (missing : P.Outcome post ((f none).run []) ((f' none).run []))
    (found : ∀ {t ts us}, P.Aligned s (t :: ts) (t :: us) → P.Aligned (s.next t) ts us →
      P.Outcome post ((f (some t)).run (t :: ts)) ((f' (some t)).run (t :: us))) :
    P.Agree s (.peek >>= f) (.peek >>= f') post := by
  refine ⟨fun {ts us} h => ?_⟩
  rcases h.cases_of_free free with ⟨rfl, rfl⟩ | ⟨t, _, _, rfl, rfl, _, others⟩
  · exact missing
  · exact found h others

theorem Agree.next_bind {f : Option Token → Reader γ} {f' : Option Token → Reader δ}
    (free : s.holdsValue = false)
    (missing : P.Outcome post ((f none).run []) ((f' none).run []))
    (found : ∀ t, P.Agree (s.next t) (f (some t)) (f' (some t)) post) :
    P.Agree s (.next >>= f) (.next >>= f') post := by
  refine ⟨fun {ts us} h => ?_⟩
  rcases h.cases_of_free free with ⟨rfl, rfl⟩ | ⟨t, _, _, rfl, rfl, _, others⟩
  · exact missing
  · exact (found t).outcome others

theorem Agree.next_guard {x : CompileError} {f : Unit → Reader γ} {f' : Unit → Reader δ}
    (free : s.holdsValue = false) (found : P.Agree (s.next t) (f ()) (f' ()) post) :
    P.Agree s (.next >>= fun o => if o ≠ some t then .fail x >>= f else f ())
      (.next >>= fun o => if o ≠ some t then .fail x >>= f' else f' ()) post := by
  refine .next_bind free (.error (.inl rfl)) fun u => .ite (fun _ => .fail_bind) ?_
  intro same
  obtain rfl : u = t := by simpa using same
  exact found

theorem Agree.atKeyword_bind {k : String} {f : Bool → Reader γ} {f' : Bool → Reader δ}
    (free : s.holdsValue = false) (each : ∀ b, P.Agree s (f b) (f' b) post) :
    P.Agree s (.atKeyword k >>= f) (.atKeyword k >>= f') post := by
  refine ⟨fun {ts us} h => ?_⟩
  simp only [Reader.run_bind, Reader.run_atKeyword, Reader.continueWith_ok,
    h.head?_eq_of_free free]
  exact (each _).outcome h

theorem Agree.eatKeyword_bind {k : String} {f : Bool → Reader γ} {f' : Bool → Reader δ}
    (free : s.holdsValue = false)
    (found : ∀ t, t.isKeyword k = true → P.Agree (s.next t) (f true) (f' true) post)
    (missing : P.Agree s (f false) (f' false) post) :
    P.Agree s (.eatKeyword k >>= f) (.eatKeyword k >>= f') post := by
  refine ⟨fun {ts us} h => ?_⟩
  rw [Reader.run_bind, Reader.run_bind, Reader.run_eatKeyword, Reader.run_eatKeyword]
  rcases h.cases_of_free free with ⟨rfl, rfl⟩ | ⟨t, _, _, rfl, rfl, _, others⟩
  · exact missing.outcome h
  · by_cases here : t.isKeyword k = true
    · simp only [List.head?_cons, Option.any_some, here, if_true, List.tail_cons]
      exact (found t here).outcome others
    · simp only [List.head?_cons, Option.any_some, here, if_false, Bool.false_eq_true]
      exact missing.outcome h

/-- It does not matter for the place whether the keyword is there. -/
theorem Agree.mark_bind {k : String} {f : Bool → Reader γ} {f' : Bool → Reader δ}
    (free : s.holdsValue = false) (stays : ∀ {t}, t.isKeyword k = true → s.next t = s)
    (each : ∀ b, P.Agree s (f b) (f' b) post) :
    P.Agree s (.eatKeyword k >>= f) (.eatKeyword k >>= f') post := by
  refine .eatKeyword_bind free (fun t here => ?_) (each false)
  rw [stays here]
  exact each true

theorem Agree.expectKeyword_bind {k : String} {f : Unit → Reader γ} {f' : Unit → Reader δ}
    (free : s.holdsValue = false)
    (found : ∀ t, t.isKeyword k = true → P.Agree (s.next t) (f ()) (f' ()) post) :
    P.Agree s (.expectKeyword k >>= f) (.expectKeyword k >>= f') post := by
  simp only [Reader.expectKeyword, bind_assoc]
  refine .eatKeyword_bind free (fun t here => ?_) ?_
  · exact found t here
  · simp only [Bool.false_eq_true, if_false, bind_assoc]
    exact .peek_bind free (.error (.inl rfl)) fun _ _ => .error (.inl rfl)

theorem Agree.at?_bind {f : Bool → Reader γ} {f' : Bool → Reader δ} (plain : t.isValue = false)
    (each : ∀ b, P.Agree s (f b) (f' b) post) : P.Agree s (.at? t >>= f) (.at? t >>= f') post := by
  refine ⟨fun {ts us} h => ?_⟩
  simp only [Reader.run_bind, Reader.run_at?, Reader.continueWith_ok, h.head?_eq_iff plain]
  exact (each _).outcome h

theorem Agree.eat_bind {f : Bool → Reader γ} {f' : Bool → Reader δ} (plain : t.isValue = false)
    (found : P.Agree (s.next t) (f true) (f' true) post)
    (missing : P.Agree s (f false) (f' false) post) :
    P.Agree s (.eat t >>= f) (.eat t >>= f') post := by
  refine ⟨fun {ts us} h => ?_⟩
  simp only [Reader.run_bind, Reader.run_eat, h.head?_eq_iff plain]
  by_cases here : us.head? = some t
  · simp only [here, if_true]
    exact found.outcome (h.tail ((h.head?_eq_iff plain).mpr here))
  · simp only [here, if_false]
    exact missing.outcome h

theorem Agree.expect_bind {f : Unit → Reader γ} {f' : Unit → Reader δ} (plain : t.isValue = false)
    (found : P.Agree (s.next t) (f ()) (f' ()) post) :
    P.Agree s (.expect t >>= f) (.expect t >>= f') post := by
  simp only [Reader.expect, bind_assoc]
  refine .eat_bind plain found ⟨fun {ts us} h => ?_⟩
  refine .error (h.head?_eq.imp_left fun same => ?_)
  rw [same]

theorem Agree.name_bind {f : String → Reader γ} {f' : String → Reader δ}
    (free : s.holdsValue = false)
    (found : ∀ {t a}, t.name? = some a → P.Agree (s.next t) (f a) (f' a) post) :
    P.Agree s (.name >>= f) (.name >>= f') post := by
  simp only [Reader.name, bind_assoc]
  refine .next_bind free (.error (.inl rfl)) fun t => ?_
  cases named : t.name? with
  | none => simp only [named]; exact .fail_bind
  | some a => simp only [named, pure_bind]; exact found named

/-- The tokens that stand opposite each other as values are taken together. -/
theorem Agree.value_bind {f : Token → Reader γ} {f' : Token → Reader δ}
    (found : ∀ {t u}, P.Paired t u → t.isValue = true → P.Agree (s.next t) (f t) (f' u) post) :
    P.Agree s (.value >>= f) (.value >>= f') post := by
  refine ⟨fun {ts us} h => ?_⟩
  simp only [Reader.value, bind_assoc, Reader.run_bind, Reader.run_next, Reader.continueWith_ok]
  cases h with
  | nil => exact .error (.inl rfl)
  | @same _ t _ _ keeps others =>
    simp only [List.head?_cons, List.tail_cons]
    by_cases value : t.isValue = true
    · simp only [value, if_true]
      exact (found (.inl ⟨keeps, rfl⟩) value).outcome others
    · simp only [value, if_false, Bool.false_eq_true]
      exact .error (.inl rfl)
  | swap _ swaps others =>
    obtain ⟨first, second⟩ := P.isValue swaps
    simp only [List.head?_cons, List.tail_cons, first, second, if_true]
    exact (found (.inr swaps) first).outcome others

theorem Agree.finish_bind {f : Unit → Reader γ} {f' : Unit → Reader δ}
    (found : P.Agree s (f ()) (f' ()) post) :
    P.Agree s (.finish >>= f) (.finish >>= f') post := by
  refine ⟨fun {ts us} h => ?_⟩
  cases h with
  | nil => exact found.outcome .nil
  | same keeps others => exact .error (.inl rfl)
  | swap holds swaps others => exact .error (.inr ⟨_, _, swaps⟩)

/-! ### Loops -/

/-- Loops agree if their bodies keep a relation between their states and come back to the place in
which the loop looks for its next round. -/
theorem Agree.loop {again : Token → Except CompileError (Option κ)} {body : σ → κ → Reader σ}
    {body' : τ → κ → Reader τ} {I : σ → τ → Prop}
    (ends : s.holdsValue = true → ∀ {t u}, P.swaps t u →
      again t = .ok none ∧ again u = .ok none)
    (leads : ∀ {t k}, again t = .ok (some k) → s.next t = s')
    (each : ∀ {a b} k, I a b → P.Agree s' (body a k) (body' b k) fun a b e => I a b ∧ e = s)
    {a : σ} {b : τ} (start : I a b) :
    P.Agree s (.loop again body a) (.loop again body' b) fun a b e => I a b ∧ e = s := by
  refine ⟨fun {ts us} h => ?_⟩
  induction hn : ts.length using Nat.strongRecOn generalizing ts us a b with
  | ind n ih =>
    cases h with
    | nil =>
      rw [Reader.run_loop_nil, Reader.run_loop_nil]
      exact .ok ⟨start, rfl⟩ .nil
    | @same _ t ts us keeps others =>
      rw [Reader.run_loop_cons, Reader.run_loop_cons]
      rcases on : again t with x | _ | k
      · exact .error (.inl rfl)
      · exact .ok ⟨start, rfl⟩ (.same keeps others)
      · rw [leads on] at others
        have first := (each k start).outcome others
        have shorter := ((body a k).leaves_suffix ts).length_le
        dsimp only
        rw [Reader.run_bind, Reader.run_bind]
        generalize (body a k).run ts = x at first shorter
        generalize (body' b k).run us = y at first
        cases first with
        | error reason => exact .error reason
        | @ok _ _ _ ts' _ related rest =>
          obtain ⟨related, rfl⟩ := related
          refine ih ts'.length ?_ related rest rfl
          rw [← hn, List.length_cons]
          exact Nat.lt_succ_of_le shorter
    | swap holds swaps others =>
      obtain ⟨first, second⟩ := ends holds swaps
      rw [Reader.run_loop_cons, Reader.run_loop_cons, first, second]
      exact .ok ⟨start, rfl⟩ (.swap holds swaps others)

theorem Agree.separated {item : σ → Reader σ} {item' : τ → Reader τ} {I : σ → τ → Prop}
    (comma : s'.next .comma = s)
    (each : ∀ {a b}, I a b → P.Agree s (item a) (item' b) fun a b e => I a b ∧ e = s')
    {a : σ} {b : τ} (start : I a b) :
    P.Agree s (.separated item a) (.separated item' b) fun a b e => I a b ∧ e = s' := by
  refine .bind (each start) ?_
  rintro c d _ ⟨related, rfl⟩
  refine .loop (fun _ {t u} swaps => ?_) (fun {t k} on => ?_) (fun _ => each) related
  · obtain ⟨first, second⟩ := P.isValue swaps
    constructor <;> refine Reader.afterComma_eq_none_iff.mpr ?_ <;> rintro rfl
    · cases first
    · cases second
  · rw [Reader.afterComma_eq_some_iff.mp on]
    exact comma

theorem Agree.list {item : Reader α} {item' : Reader β} {R : α → β → Prop}
    (comma : s'.next .comma = s)
    (each : P.Agree s item item' fun a b e => R a b ∧ e = s') :
    P.Agree s (.list item) (.list item') fun as bs e => List.Forall₂ R as bs ∧ e = s' := by
  refine .separated comma (fun {as bs} related => .bind each ?_) .nil
  rintro a b _ ⟨head, rfl⟩
  exact .pure ⟨List.rel_append related (.cons head .nil), rfl⟩

theorem Passes.list {item : Reader α} (comma : s'.next .comma = s) (each : P.Passes s item s') :
    P.Passes s (.list item) s' := by
  have related := Agree.list comma each
  simp only [List.forall₂_eq_eq_eq] at related
  exact related

end Outcomes

end Pairing

end SqlBridge
