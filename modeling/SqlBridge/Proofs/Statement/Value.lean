import SqlBridge.Proofs.Reading
import SqlBridge.Statement.Reader

/-!
# What a token gives as a value

A literal gives itself. A placeholder gives its parameter, which must be there and must not be a
placeholder in turn. No value that is given is a placeholder.
-/

namespace SqlBridge

theorem Token.ne_paren_of_isValue {t : Token} (value : t.isValue = true) :
    t ≠ .leftParen ∧ t ≠ .rightParen := by
  constructor <;> rintro rfl <;> cases value

namespace Params

/-- The value that a token gives. -/
inductive ValueOf (params : Params) : Token → Value → Prop where
  | literal {t : Token} (value : t.isValue = true) (plain : t.literal.isPlaceholder = false) :
      ValueOf params t t.literal
  | bound {t : Token} {name : String} {v : Value} (value : t.isValue = true)
      (placeholder : t.literal = .placeholder name) (found : params.get? name = some v)
      (plain : v.isPlaceholder = false) : ValueOf params t v

theorem bind_of_plain {params : Params} {v : Value} (plain : v.isPlaceholder = false) :
    params.bind v = .ok v := by
  cases v with
  | placeholder name => cases plain
  | _ => rfl

theorem valueOf_iff {params : Params} {t : Token} {v : Value} :
    params.ValueOf t v ↔ t.isValue = true ∧ params.valueOf t = .ok v := by
  constructor
  · intro h
    cases h with
    | literal value plain => exact ⟨value, bind_of_plain plain⟩
    | bound value placeholder found plain =>
      exact ⟨value, by simp [valueOf, placeholder, bind, found, plain]⟩
  · rintro ⟨value, h⟩
    rw [valueOf] at h
    cases plain : t.literal.isPlaceholder with
    | false =>
      rw [bind_of_plain plain] at h
      cases h
      exact .literal value plain
    | true =>
      cases hl : t.literal with
      | placeholder name =>
        rw [hl, bind] at h
        cases found : params.get? name with
        | none => simp [found] at h
        | some w =>
          cases hw : w.isPlaceholder with
          | true => simp [found, hw] at h
          | false =>
            simp only [found, hw, Bool.false_eq_true, if_false, Except.ok.injEq] at h
            exact .bound value hl (h ▸ found) (h ▸ hw)
      | _ => simp [hl, Value.isPlaceholder] at plain

theorem ValueOf.isValue {params : Params} {t : Token} {v : Value} (h : params.ValueOf t v) :
    t.isValue = true :=
  (valueOf_iff.mp h).1

theorem ValueOf.ne_paren {params : Params} {t : Token} {v : Value} (h : params.ValueOf t v) :
    t ≠ .leftParen ∧ t ≠ .rightParen :=
  Token.ne_paren_of_isValue h.isValue

theorem ValueOf.plain {params : Params} {t : Token} {v : Value} (h : params.ValueOf t v) :
    v.isPlaceholder = false := by
  cases h <;> assumption

end Params

namespace Context

open Reader

theorem reads_value_bind {ctx : Context} {β : Type} {f : Value → Reader β} {b : β}
    {p rest : List Token} :
    (ctx.value >>= f).Reads p b rest ↔
      ∃ t s v, p = t :: s ∧ ctx.params.ValueOf t v ∧ (f v).Reads s b rest := by
  simp only [value, bind_assoc, Reader.reads_value_bind, reads_ofExcept_bind, Params.valueOf_iff]
  constructor
  · rintro ⟨t, s, hp, ht, v, hv, h⟩
    exact ⟨t, s, v, hp, ⟨ht, hv⟩, h⟩
  · rintro ⟨t, s, v, hp, ⟨ht, hv⟩, h⟩
    exact ⟨t, s, hp, ht, v, hv, h⟩

def CountOf (ctx : Context) (t : Token) (n : UInt64) : Prop :=
  t.isValue = true ∧ ctx.params.countOf t = .ok n

theorem reads_count_bind {ctx : Context} {β : Type} {f : UInt64 → Reader β} {b : β}
    {p rest : List Token} :
    (ctx.count >>= f).Reads p b rest ↔
      ∃ t s n, p = t :: s ∧ ctx.CountOf t n ∧ (f n).Reads s b rest := by
  simp only [count, bind_assoc, Reader.reads_value_bind, reads_ofExcept_bind, CountOf]
  constructor
  · rintro ⟨t, s, hp, ht, n, hn, h⟩
    exact ⟨t, s, n, hp, ⟨ht, hn⟩, h⟩
  · rintro ⟨t, s, n, hp, ⟨ht, hn⟩, h⟩
    exact ⟨t, s, hp, ht, n, hn, h⟩

end Context

end SqlBridge
