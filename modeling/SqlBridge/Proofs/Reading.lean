import Mathlib.Data.List.Forall2
import SqlBridge.Statement.Reader

/-!
# What readers take

A reader is described by the tokens it takes in front of those it leaves. The tokens that are left
stand in the judgment, because readers look at the next token before they stop. The judgment of a
reader made of parts is put together from the judgments of the parts, in both directions, so a
grammar can be compared with its reader clause by clause.
-/

namespace SqlBridge.Reader

variable {α β σ κ : Type}

/-- The reader takes the tokens `p` in front of `rest` and yields `a`. -/
def Reads (r : Reader α) (p : List Token) (a : α) (rest : List Token) : Prop :=
  r.run (p ++ rest) = (.ok a, rest)

def AtKeyword (keyword : String) (ts : List Token) : Prop :=
  ts.head?.any (·.isKeyword keyword) = true

@[simp] theorem atKeyword_nil {keyword : String} : ¬ AtKeyword keyword [] := by
  simp [AtKeyword]

@[simp] theorem atKeyword_cons {keyword : String} {t : Token} {ts : List Token} :
    AtKeyword keyword (t :: ts) ↔ t.isKeyword keyword = true := by
  simp [AtKeyword]

/-- What a reader takes and what it leaves make up what it was given. -/
theorem run_eq_ok_iff {r : Reader α} {ts rest : List Token} {a : α} :
    r.run ts = (.ok a, rest) ↔ ∃ p, ts = p ++ rest ∧ r.Reads p a rest := by
  constructor
  · intro h
    have suffix := r.leaves_suffix ts
    rw [h] at suffix
    obtain ⟨p, hp⟩ := suffix
    exact ⟨p, hp.symm, by rw [Reads, hp, h]⟩
  · rintro ⟨p, rfl, h⟩
    exact h

theorem reads_pure {a b : α} {p rest : List Token} :
    (pure b : Reader α).Reads p a rest ↔ p = [] ∧ a = b := by
  simp [Reads, eq_comm, and_comm]

theorem not_reads_fail {e : CompileError} {a : α} {p rest : List Token} :
    ¬ (fail e : Reader α).Reads p a rest := by
  simp [Reads]

theorem reads_ofExcept {x : Except CompileError α} {a : α} {p rest : List Token} :
    (ofExcept x).Reads p a rest ↔ p = [] ∧ x = .ok a := by
  simp [Reads, and_comm]

/-- Two readers in a row take what the first takes in front of what the second takes. -/
theorem reads_bind {r : Reader α} {f : α → Reader β} {b : β} {p rest : List Token} :
    (r >>= f).Reads p b rest ↔
      ∃ q s a, p = q ++ s ∧ r.Reads q a (s ++ rest) ∧ (f a).Reads s b rest := by
  constructor
  · intro h
    simp only [Reads, run_bind] at h
    rcases hr : r.run (p ++ rest) with ⟨e | a, middle⟩
    · rw [hr] at h
      cases h
    · rw [hr, continueWith_ok] at h
      obtain ⟨s, rfl, hs⟩ := run_eq_ok_iff.mp h
      obtain ⟨q, hq, first⟩ := run_eq_ok_iff.mp hr
      rw [← List.append_assoc] at hq
      exact ⟨q, s, a, List.append_cancel_right hq, first, hs⟩
  · rintro ⟨q, s, a, rfl, first, second⟩
    simp only [Reads, run_bind, List.append_assoc] at first ⊢
    rw [first]
    exact second

theorem not_reads_fail_bind {e : CompileError} {f : α → Reader β} {b : β} {p rest : List Token} :
    ¬ ((fail e : Reader α) >>= f).Reads p b rest := by
  rw [reads_bind]
  rintro ⟨q, s, a, _, h, _⟩
  exact not_reads_fail h

theorem reads_ofExcept_bind {x : Except CompileError α} {f : α → Reader β} {b : β}
    {p rest : List Token} :
    (ofExcept x >>= f).Reads p b rest ↔ ∃ a, x = .ok a ∧ (f a).Reads p b rest := by
  simp only [reads_bind, reads_ofExcept]
  constructor
  · rintro ⟨q, s, a, rfl, ⟨rfl, hx⟩, h⟩
    exact ⟨a, hx, h⟩
  · rintro ⟨a, hx, h⟩
    exact ⟨[], p, a, rfl, ⟨rfl, hx⟩, h⟩

theorem reads_ite {c : Prop} [Decidable c] {r s : Reader α} {a : α} {p rest : List Token} :
    (if c then r else s).Reads p a rest ↔ (c ∧ r.Reads p a rest) ∨ (¬ c ∧ s.Reads p a rest) := by
  by_cases hc : c <;> simp [hc]

/-! ### The next token -/

theorem reads_peek_bind {f : Option Token → Reader β} {b : β} {p rest : List Token} :
    (peek >>= f).Reads p b rest ↔ (f (p ++ rest).head?).Reads p b rest := by
  simp [Reads]

/-- The next token is taken, or there is none. -/
theorem reads_next_bind {f : Option Token → Reader β} {b : β} {p rest : List Token} :
    (next >>= f).Reads p b rest ↔
      (∃ t s, p = t :: s ∧ (f (some t)).Reads s b rest) ∨
        (p = [] ∧ rest = [] ∧ (f none).Reads [] b []) := by
  rcases p with _ | ⟨t, p⟩
  · rcases rest with _ | ⟨t, rest⟩
    · simp [Reads]
    · -- a reader that yields the rest cannot have taken a token of it
      simp only [Reads, run_bind, run_next, continueWith_ok, List.nil_append, List.head?_cons,
        List.tail_cons, reduceCtorEq, false_and, and_false, exists_const, or_self, iff_false]
      intro h
      have suffix := (f (some t)).leaves_suffix rest
      rw [h] at suffix
      exact absurd suffix.length_le (by simp)
  · simp only [Reads, run_bind, run_next, continueWith_ok, List.cons_append, List.head?_cons,
      List.tail_cons, List.cons.injEq, reduceCtorEq, false_and, or_false]
    constructor
    · intro h
      exact ⟨t, p, ⟨rfl, rfl⟩, h⟩
    · rintro ⟨_, _, ⟨rfl, rfl⟩, h⟩
      exact h

theorem reads_atKeyword_bind {keyword : String} {f : Bool → Reader β} {b : β}
    {p rest : List Token} :
    (atKeyword keyword >>= f).Reads p b rest ↔
      (AtKeyword keyword (p ++ rest) ∧ (f true).Reads p b rest) ∨
        (¬ AtKeyword keyword (p ++ rest) ∧ (f false).Reads p b rest) := by
  by_cases h : AtKeyword keyword (p ++ rest)
  · have hb : (p ++ rest).head?.any (·.isKeyword keyword) = true := h
    simp only [Reads, run_bind, run_atKeyword, hb, continueWith_ok, h, true_and, not_true_eq_false,
      false_and, or_false]
  · have hb : (p ++ rest).head?.any (·.isKeyword keyword) = false := by
      simpa [AtKeyword] using h
    simp only [Reads, run_bind, run_atKeyword, hb, continueWith_ok, h, false_and, not_false_eq_true,
      true_and, false_or]

theorem reads_at?_bind {token : Token} {f : Bool → Reader β} {b : β} {p rest : List Token} :
    (at? token >>= f).Reads p b rest ↔
      ((p ++ rest).head? = some token ∧ (f true).Reads p b rest) ∨
        ((p ++ rest).head? ≠ some token ∧ (f false).Reads p b rest) := by
  by_cases h : (p ++ rest).head? = some token
  · simp only [Reads, run_bind, run_at?, h, decide_true, continueWith_ok, true_and, ne_eq,
      not_true_eq_false, false_and, or_false]
  · simp only [Reads, run_bind, run_at?, h, decide_false, continueWith_ok, false_and, ne_eq,
      not_false_eq_true, true_and, false_or]

/-- A keyword is taken exactly when it is next. -/
theorem reads_eatKeyword_bind {keyword : String} {f : Bool → Reader β} {b : β}
    {p rest : List Token} :
    (eatKeyword keyword >>= f).Reads p b rest ↔
      (∃ t s, p = t :: s ∧ t.isKeyword keyword = true ∧ (f true).Reads s b rest) ∨
        (¬ AtKeyword keyword (p ++ rest) ∧ (f false).Reads p b rest) := by
  have split : (eatKeyword keyword >>= f) =
      (atKeyword keyword >>= fun found => if found then next >>= fun _ => f true else f false) := by
    rw [eatKeyword, bind_assoc]
    congr 1
    funext found
    cases found <;> simp
  rw [split, reads_atKeyword_bind]
  refine or_congr ?_ (by simp)
  simp only [if_true, reads_next_bind]
  constructor
  · rintro ⟨here, ⟨t, s, rfl, h⟩ | ⟨rfl, rfl, _⟩⟩
    · exact ⟨t, s, rfl, by simpa using here, h⟩
    · simp at here
  · rintro ⟨t, s, rfl, here, h⟩
    exact ⟨by simpa using here, .inl ⟨t, s, rfl, h⟩⟩

/-- A keyword that may be left out, and whether it is there. -/
inductive Marked (keyword : String) (rest : List Token) : List Token → Bool → Prop where
  | present {t : Token} (here : t.isKeyword keyword = true) : Marked keyword rest [t] true
  | absent (ended : ¬ AtKeyword keyword rest) : Marked keyword rest [] false

theorem marked_cons_iff {keyword : String} {t : Token} {s q : List Token} {found : Bool} :
    Marked keyword (t :: s) q found ↔ Marked keyword [t] q found := by
  constructor <;> intro h <;> cases h with
  | present here => exact .present here
  | absent ended => exact .absent (by simpa using ended)

theorem reads_marked_bind {keyword : String} {f : Bool → Reader β} {b : β} {p rest : List Token} :
    (eatKeyword keyword >>= f).Reads p b rest ↔
      ∃ q s found, p = q ++ s ∧ Marked keyword (s ++ rest) q found ∧ (f found).Reads s b rest := by
  rw [reads_eatKeyword_bind]
  constructor
  · rintro (⟨t, s, rfl, here, h⟩ | ⟨ended, h⟩)
    · exact ⟨[t], s, true, rfl, .present here, h⟩
    · exact ⟨[], p, false, rfl, .absent ended, h⟩
  · rintro ⟨q, s, found, rfl, marked, h⟩
    cases marked with
    | present here => exact .inl ⟨_, s, rfl, here, h⟩
    | absent ended => exact .inr ⟨ended, h⟩

/-- A token is taken exactly when it is next. -/
theorem reads_eat_bind {token : Token} {f : Bool → Reader β} {b : β} {p rest : List Token} :
    (eat token >>= f).Reads p b rest ↔
      (∃ s, p = token :: s ∧ (f true).Reads s b rest) ∨
        ((p ++ rest).head? ≠ some token ∧ (f false).Reads p b rest) := by
  have split : (eat token >>= f) =
      (at? token >>= fun found => if found then next >>= fun _ => f true else f false) := by
    rw [eat, bind_assoc]
    congr 1
    funext found
    cases found <;> simp
  rw [split, reads_at?_bind]
  refine or_congr ?_ (by simp)
  simp only [if_true, reads_next_bind]
  constructor
  · rintro ⟨here, ⟨t, s, rfl, h⟩ | ⟨rfl, rfl, _⟩⟩
    · simp only [List.cons_append, List.head?_cons, Option.some.injEq] at here
      exact ⟨s, by rw [here], h⟩
    · simp at here
  · rintro ⟨s, rfl, h⟩
    exact ⟨by simp, .inl ⟨token, s, rfl, h⟩⟩

theorem reads_expectKeyword_bind {keyword : String} {f : Unit → Reader β} {b : β}
    {p rest : List Token} :
    (expectKeyword keyword >>= f).Reads p b rest ↔
      ∃ t s, p = t :: s ∧ t.isKeyword keyword = true ∧ (f ()).Reads s b rest := by
  simp only [expectKeyword, bind_assoc, reads_eatKeyword_bind, if_true, pure_bind,
    Bool.false_eq_true, if_false, reads_peek_bind, not_reads_fail_bind, and_false, or_false]

theorem reads_expect_bind {token : Token} {f : Unit → Reader β} {b : β} {p rest : List Token} :
    (expect token >>= f).Reads p b rest ↔ ∃ s, p = token :: s ∧ (f ()).Reads s b rest := by
  simp only [expect, bind_assoc, reads_eat_bind, if_true, pure_bind,
    Bool.false_eq_true, if_false, reads_peek_bind, not_reads_fail_bind, and_false, or_false]

theorem reads_next_guard {token : Token} {e : CompileError} {f : Unit → Reader β} {b : β}
    {p rest : List Token} :
    (next >>= fun t => if t ≠ some token then fail e >>= f else f ()).Reads p b rest ↔
      ∃ s, p = token :: s ∧ (f ()).Reads s b rest := by
  rw [reads_next_bind]
  constructor
  · rintro (⟨t, s, rfl, h⟩ | ⟨_, _, h⟩)
    · rw [reads_ite] at h
      obtain ⟨_, h⟩ | ⟨same, h⟩ := h
      · exact False.elim (not_reads_fail_bind h)
      · obtain rfl : t = token := by simpa using same
        exact ⟨s, rfl, h⟩
    · simp [not_reads_fail_bind] at h
  · rintro ⟨s, rfl, h⟩
    refine .inl ⟨token, s, rfl, ?_⟩
    rw [reads_ite]
    exact .inr ⟨by simp, h⟩

/-- A name is a single token. -/
theorem reads_name_bind {f : String → Reader β} {b : β} {p rest : List Token} :
    (name >>= f).Reads p b rest ↔
      ∃ t s a, p = t :: s ∧ t.name? = some a ∧ (f a).Reads s b rest := by
  simp only [name, bind_assoc, reads_next_bind]
  constructor
  · rintro (⟨t, s, rfl, h⟩ | ⟨_, _, h⟩)
    · cases ht : t.name? with
      | none => simp only [ht, not_reads_fail_bind] at h
      | some a =>
        simp only [ht, pure_bind] at h
        exact ⟨t, s, a, rfl, ht, h⟩
    · exact False.elim (not_reads_fail_bind h)
  · rintro ⟨t, s, a, rfl, ht, h⟩
    exact .inl ⟨t, s, rfl, by simpa only [ht, pure_bind] using h⟩

/-- A value is a single token. -/
theorem reads_value_bind {f : Token → Reader β} {b : β} {p rest : List Token} :
    (value >>= f).Reads p b rest ↔
      ∃ t s, p = t :: s ∧ t.isValue = true ∧ (f t).Reads s b rest := by
  simp only [value, bind_assoc, reads_next_bind]
  constructor
  · rintro (⟨t, s, rfl, h⟩ | ⟨_, _, h⟩)
    · by_cases ht : t.isValue = true
      · simp only [ht, if_true, pure_bind] at h
        exact ⟨t, s, rfl, ht, h⟩
      · simp only [ht, if_false, not_reads_fail_bind, Bool.false_eq_true] at h
    · exact False.elim (not_reads_fail_bind h)
  · rintro ⟨t, s, rfl, ht, h⟩
    exact .inl ⟨t, s, rfl, by simpa only [ht, if_true, pure_bind] using h⟩

/-- Nothing may follow the end. -/
theorem reads_finish_bind {f : Unit → Reader β} {b : β} {p rest : List Token} :
    (finish >>= f).Reads p b rest ↔ p = [] ∧ rest = [] ∧ (f ()).Reads [] b [] := by
  simp only [finish, bind_assoc, reads_peek_bind]
  rcases p with _ | ⟨t, p⟩
  · rcases rest with _ | ⟨t, rest⟩ <;> simp [not_reads_fail_bind]
  · simp [not_reads_fail_bind]

/-! ### Loops and lists -/

/-- The rounds of a loop in front of `rest`, from a state to a state. -/
inductive Rounds (again : Token → Except CompileError (Option κ)) (body : σ → κ → Reader σ)
    (rest : List Token) : σ → List Token → σ → Prop where
  | stop {s : σ} (ended : ∀ t ∈ rest.head?, again t = .ok none) : Rounds again body rest s [] s
  | round {s s' s'' : σ} {t : Token} {k : κ} {p q : List Token} (on : again t = .ok (some k))
      (first : (body s k).Reads p s' (q ++ rest)) (others : Rounds again body rest s' q s'') :
      Rounds again body rest s (t :: (p ++ q)) s''

/-- What is left is no longer than what was given. -/
theorem run_ne_of_length_lt {r : Reader α} {ts rest : List Token} {a : α}
    (h : ts.length < rest.length) : r.run ts ≠ (.ok a, rest) := by
  intro hr
  have suffix := r.leaves_suffix ts
  rw [hr] at suffix
  exact absurd suffix.length_le (by simpa using h)

theorem reads_loop_cons {again : Token → Except CompileError (Option κ)} {body : σ → κ → Reader σ}
    {s s' : σ} {t : Token} {p rest : List Token} :
    (loop again body s).Reads (t :: p) s' rest ↔
      ∃ k, again t = .ok (some k) ∧ (body s k >>= loop again body).Reads p s' rest := by
  simp only [Reads, List.cons_append, run_loop_cons]
  rcases again t with e | _ | k
  · simp
  · have longer : t :: (p ++ rest) ≠ rest := by
      intro h
      have := congrArg List.length h
      simp only [List.length_cons, List.length_append] at this
      omega
    simp [longer]
  · simp

theorem reads_loop_nil {again : Token → Except CompileError (Option κ)} {body : σ → κ → Reader σ}
    {s s' : σ} {rest : List Token} :
    (loop again body s).Reads [] s' rest ↔ s' = s ∧ ∀ t ∈ rest.head?, again t = .ok none := by
  rcases rest with _ | ⟨t, rest⟩
  · simp [Reads, eq_comm]
  · simp only [Reads, List.nil_append, run_loop_cons, List.head?_cons, Option.mem_def,
      Option.some.injEq, forall_eq']
    rcases again t with e | _ | k
    · simp
    · simp [eq_comm]
    · simp only [Except.ok.injEq, reduceCtorEq, and_false, iff_false]
      exact run_ne_of_length_lt (by simp)

/-- A loop takes the tokens of its rounds. -/
theorem reads_loop {again : Token → Except CompileError (Option κ)} {body : σ → κ → Reader σ}
    {s s' : σ} {p rest : List Token} :
    (loop again body s).Reads p s' rest ↔ Rounds again body rest s p s' := by
  constructor
  · intro h
    induction hn : p.length using Nat.strongRecOn generalizing s p with
    | ind n ih =>
      rcases p with _ | ⟨t, p⟩
      · obtain ⟨rfl, ended⟩ := reads_loop_nil.mp h
        exact .stop ended
      · obtain ⟨k, on, tail⟩ := reads_loop_cons.mp h
        obtain ⟨q, r, middle, rfl, first, others⟩ := reads_bind.mp tail
        refine .round on first (ih r.length ?_ others rfl)
        subst hn
        rw [List.length_cons, List.length_append]
        omega
  · intro h
    induction h with
    | stop ended => exact reads_loop_nil.mpr ⟨rfl, ended⟩
    | round on first _ ih =>
      exact reads_loop_cons.mpr ⟨_, on, reads_bind.mpr ⟨_, _, _, rfl, first, ih⟩⟩

/-- Items with commas between them in front of `rest`; `J` says which tokens are an item in front of
which. -/
inductive Items (J : List Token → List Token → α → Prop) (rest : List Token) :
    List Token → List α → Prop where
  | last {p : List Token} {a : α} (only : J rest p a) (ended : rest.head? ≠ some .comma) :
      Items J rest p [a]
  | more {p q : List Token} {a : α} {as : List α} (first : J (.comma :: (q ++ rest)) p a)
      (others : Items J rest q as) : Items J rest (p ++ .comma :: q) (a :: as)

/-- The passes of an item over a state in front of `rest`, with commas between them. -/
inductive Passes (item : σ → Reader σ) (rest : List Token) : σ → List Token → σ → Prop where
  | last {s s' : σ} {p : List Token} (only : (item s).Reads p s' rest)
      (ended : rest.head? ≠ some .comma) : Passes item rest s p s'
  | more {s s' s'' : σ} {p q : List Token} (first : (item s).Reads p s' (.comma :: (q ++ rest)))
      (others : Passes item rest s' q s'') : Passes item rest s (p ++ .comma :: q) s''

theorem afterComma_eq_none_iff {t : Token} : afterComma t = .ok none ↔ t ≠ .comma := by
  by_cases h : t = .comma <;> simp [afterComma, h]

theorem afterComma_eq_some_iff {t : Token} {k : Unit} :
    afterComma t = .ok (some k) ↔ t = .comma := by
  by_cases h : t = .comma <;> simp [afterComma, h]

theorem reads_separated {item : σ → Reader σ} {s s' : σ} {p rest : List Token} :
    (separated item s).Reads p s' rest ↔ Passes item rest s p s' := by
  have over_iff : (∀ t ∈ rest.head?, afterComma t = .ok none) ↔ rest.head? ≠ some .comma := by
    simp only [afterComma_eq_none_iff]
    cases rest <;> simp
  rw [separated, reads_bind]
  constructor
  · rintro ⟨p, q, middle, rfl, first, rounds⟩
    rw [reads_loop] at rounds
    induction rounds generalizing s p with
    | stop ended =>
      rw [List.append_nil]
      exact .last first (over_iff.mp ended)
    | round on next _ ih =>
      obtain rfl := afterComma_eq_some_iff.mp on
      exact .more (by simpa using first) (ih _ next)
  · intro passes
    induction passes with
    | last only ended =>
      exact ⟨_, [], _, (List.append_nil _).symm, only, reads_loop.mpr (.stop (over_iff.mpr ended))⟩
    | more first _ ih =>
      obtain ⟨q, r, middle, rfl, next, rounds⟩ := ih
      refine ⟨_, _, _, rfl, by simpa using first, reads_loop_cons.mpr ⟨(), rfl, ?_⟩⟩
      exact reads_bind.mpr ⟨q, r, middle, rfl, next, rounds⟩

theorem reads_item {item : Reader α} {before after : List α} {p rest : List Token} :
    (do return before ++ [← item] : Reader (List α)).Reads p after rest ↔
      ∃ a, item.Reads p a rest ∧ after = before ++ [a] := by
  simp only [reads_bind, reads_pure]
  constructor
  · rintro ⟨q, s, a, rfl, h, rfl, rfl⟩
    exact ⟨a, by simpa using h, rfl⟩
  · rintro ⟨a, h, rfl⟩
    exact ⟨p, [], a, by simp, by simpa using h, rfl, rfl⟩

/-- A list takes the tokens of its items. -/
theorem reads_list {item : Reader α} {J : List Token → List Token → α → Prop} {as : List α}
    {p rest : List Token} (reads : ∀ {p a rest}, item.Reads p a rest ↔ J rest p a) :
    (list item).Reads p as rest ↔ Items J rest p as := by
  have general : ∀ before after, Passes (fun before => do return before ++ [← item]) rest before p
      after ↔ ∃ as, after = before ++ as ∧ Items J rest p as := by
    intro before after
    constructor
    · intro passes
      induction passes with
      | last only ended =>
        obtain ⟨a, h, rfl⟩ := reads_item.mp only
        exact ⟨[a], rfl, .last (reads.mp h) ended⟩
      | more first _ ih =>
        obtain ⟨a, h, rfl⟩ := reads_item.mp first
        obtain ⟨as, rfl, others⟩ := ih
        exact ⟨a :: as, by simp, .more (reads.mp h) others⟩
    · rintro ⟨as, rfl, items⟩
      induction items generalizing before with
      | last only ended => exact .last (reads_item.mpr ⟨_, reads.mpr only, rfl⟩) ended
      | @more _ _ a as first _ ih =>
        have tail := ih (before ++ [a])
        rw [List.append_assoc, List.singleton_append] at tail
        exact .more (reads_item.mpr ⟨a, reads.mpr first, rfl⟩) tail
  rw [list, reads_separated, general]
  simp

theorem Items.ne_nil {J : List Token → List Token → α → Prop} {rest p : List Token} {as : List α}
    (items : Items J rest p as) : as ≠ [] := by
  cases items <;> simp

/-- A property of every item, whatever follows it, is a property of all items. -/
theorem Items.all {J : List Token → List Token → α → Prop} {rest p : List Token} {as : List α}
    (items : Items J rest p as) {P : α → Prop} (each : ∀ {rest p a}, J rest p a → P a) :
    ∀ a ∈ as, P a := by
  induction items with
  | last only => simpa using each only
  | more first _ ih => exact List.forall_mem_cons.mpr ⟨each first, ih⟩

/-- Lists of tokens with commas between them are the items that they are one by one. -/
theorem items_of_forall₂ {J : List Token → α → Prop} {rest p : List Token} {a : α} {as : List α}
    {ps : List (List Token)} (first : J p a) (others : List.Forall₂ J ps as)
    (ended : rest.head? ≠ some .comma) :
    Items (fun _ => J) rest (p ++ ps.flatMap (.comma :: ·)) (a :: as) := by
  induction others generalizing p a with
  | nil =>
    rw [List.flatMap_nil, List.append_nil]
    exact .last first ended
  | @cons q _ ps _ next _ ih =>
    have split : p ++ (q :: ps).flatMap (.comma :: ·) =
        p ++ .comma :: (q ++ ps.flatMap (.comma :: ·)) := rfl
    rw [split]
    exact .more first (ih next)

/-- Items that are found in two steps are the outcomes of the second step for those of the first. -/
theorem items_iff_forall₂ {J : List Token → List Token → α → Prop} {R : α → β → Prop}
    {rest p : List Token} {bs : List β} :
    Items (fun rest p b => ∃ a, J rest p a ∧ R a b) rest p bs ↔
      ∃ as, Items J rest p as ∧ List.Forall₂ R as bs := by
  constructor
  · intro items
    induction items with
    | last only ended =>
      obtain ⟨a, found, related⟩ := only
      exact ⟨[a], .last found ended, .cons related .nil⟩
    | more first _ ih =>
      obtain ⟨a, found, related⟩ := first
      obtain ⟨as, others, tail⟩ := ih
      exact ⟨a :: as, .more found others, .cons related tail⟩
  · rintro ⟨as, items, related⟩
    induction items generalizing bs with
    | last only ended =>
      cases related with
      | cons first others =>
        cases others
        exact .last ⟨_, only, first⟩ ended
    | more head _ ih =>
      cases related with
      | cons first others => exact .more ⟨_, head, first⟩ (ih others)

end SqlBridge.Reader
