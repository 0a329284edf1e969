import Bytehaul.Foundation.Span

/-!
# Custody of positions

A position is missing, held under exactly one key, or settled. Each of the five moves keeps
`Custody.Sound`.
-/

namespace Bytehaul.Foundation

structure Custody (κ : Type) where
  missing : Set Nat
  held : κ → Option Span

namespace Custody

variable {κ : Type}

@[ext] theorem ext {first second : Custody κ}
    (hmiss : ∀ b, b ∈ first.missing ↔ b ∈ second.missing)
    (hheld : ∀ key, first.held key = second.held key) : first = second := by
  cases first
  cases second
  congr
  · exact Set.ext hmiss
  · exact funext hheld

section Moves

variable [DecidableEq κ]

def reclaim (custody : Custody κ) (key : κ) (span : Span) : Custody κ where
  missing := fun b => b ∈ custody.missing ∨ b ∈ span
  held := Function.update custody.held key none

def settle (custody : Custody κ) (key : κ) : Custody κ where
  missing := custody.missing
  held := Function.update custody.held key none

def shrink (custody : Custody κ) (key : κ) (span : Span) : Custody κ where
  missing := custody.missing
  held := Function.update custody.held key (some span)

def rename (custody : Custody κ) (old new : κ) (span : Span) : Custody κ where
  missing := custody.missing
  held := Function.update (Function.update custody.held old none) new (some span)

end Moves

structure Sound (custody : Custody κ) : Prop where
  nonempty : ∀ key span, custody.held key = some span → span.start < span.stop
  apart : ∀ key key' span span', key ≠ key' → custody.held key = some span →
    custody.held key' = some span' → span.Apart span'
  free : ∀ key span b, custody.held key = some span → b ∈ span → b ∉ custody.missing

end Custody

end Bytehaul.Foundation
