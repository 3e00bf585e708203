import Offside.TokenKind

/-!
This module contains the sets of token kinds, such as the kinds that a parser accepts at a position.
-/

namespace Offside

@[ext]
structure TokenSet where
  contains : TokenKind → Bool

namespace TokenSet

instance : Membership TokenKind TokenSet where
  mem set kind := set.contains kind = true

instance (kind : TokenKind) (set : TokenSet) : Decidable (kind ∈ set) :=
  inferInstanceAs (Decidable (set.contains kind = true))

def none : TokenSet :=
  ⟨fun _ => false⟩

def all : TokenSet :=
  ⟨fun _ => true⟩

def ofFlags (flags : List Bool) : TokenSet :=
  ⟨fun kind => flags.getD kind.symbol.toNat false⟩

def insert (set : TokenSet) (kind : TokenKind) : TokenSet :=
  ⟨fun other => other = kind || set.contains other⟩

def erase (set : TokenSet) (kind : TokenKind) : TokenSet :=
  ⟨fun other => other ≠ kind && set.contains other⟩

def ofList (kinds : List TokenKind) : TokenSet :=
  kinds.foldl insert none

def toList (set : TokenSet) : List TokenKind :=
  TokenKind.all.filter set.contains

def isAll (set : TokenSet) : Bool :=
  TokenKind.all.all set.contains

theorem mem_iff {kind : TokenKind} {set : TokenSet} : kind ∈ set ↔ set.contains kind = true :=
  Iff.rfl

@[simp]
theorem not_mem_none (kind : TokenKind) : kind ∉ none := by
  simp [mem_iff, none]

@[simp]
theorem mem_all (kind : TokenKind) : kind ∈ all := rfl

@[simp]
theorem mem_insert {kind other : TokenKind} {set : TokenSet} :
    other ∈ set.insert kind ↔ other = kind ∨ other ∈ set := by
  simp [mem_iff, insert]

@[simp]
theorem mem_erase {kind other : TokenKind} {set : TokenSet} :
    other ∈ set.erase kind ↔ other ≠ kind ∧ other ∈ set := by
  simp [mem_iff, erase]

@[simp]
theorem mem_toList {kind : TokenKind} {set : TokenSet} : kind ∈ set.toList ↔ kind ∈ set := by
  simp [mem_iff, toList, TokenKind.mem_all]

@[simp]
theorem mem_ofList {kind : TokenKind} {kinds : List TokenKind} :
    kind ∈ ofList kinds ↔ kind ∈ kinds := by
  suffices h : ∀ set : TokenSet, kind ∈ kinds.foldl insert set ↔ kind ∈ kinds ∨ kind ∈ set by
    simp [ofList, h]
  induction kinds with
  | nil => simp
  | cons head kinds ih => grind [mem_insert]

end TokenSet

end Offside
