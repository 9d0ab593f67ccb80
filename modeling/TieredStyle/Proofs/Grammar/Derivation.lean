import TieredStyle.Css.Item.Read
import TieredStyle.Proofs.Outcome

/-!
# The grammar as a relation

What the reading functions accept, stated as derivations: a derivation says how the tokens of a
stylesheet are cut into its entries, and the functions find it if there is one.
-/
namespace TieredStyle.Css

/-- The tokens start with these declarations, up to and with the closing brace of their block. -/
inductive DeclarationsRead : List Token → List Declaration → List Token → Prop
  | close {t : Token} {ts : List Token} :
      t.is .braceClose = true → DeclarationsRead (t :: ts) [] ts
  | skip {t : Token} {ts rest : List Token} {ds : List Declaration} :
      t.is .semicolon = true → DeclarationsRead ts ds rest → DeclarationsRead (t :: ts) ds rest
  | declare {t u e : Token} {ts us rest : List Token} {value : Value} {ds : List Declaration} :
      t.kind = .ident → u.is .colon = true → takeValue ts = (value, e :: us) →
      e.is .semicolon = true ∨ e.is .braceClose = true → DeclarationsRead (e :: us) ds rest →
      DeclarationsRead (t :: u :: ts) (⟨t.text, value⟩ :: ds) rest

/-- The name of the at-rule with this keyword. -/
def Token.ruleName (t : Token) : String := String.ofList (t.text.toList.drop 1)

/-- The tokens start with these entries of the `depth`-th block inside one another, up to and with its
closing brace, or at depth zero they are those of the whole stylesheet. -/
inductive ItemsRead : Nat → List Token → List Item → List Token → Prop
  | finish : ItemsRead 0 [] [] []
  | close {depth : Nat} {t : Token} {ts : List Token} :
      depth ≠ 0 → t.is .braceClose = true → ItemsRead depth (t :: ts) [] ts
  | skip {depth : Nat} {t : Token} {ts rest : List Token} {items : List Item} :
      t.is .semicolon = true → ItemsRead depth ts items rest → ItemsRead depth (t :: ts) items rest
  | rule {depth : Nat} {t e : Token} {ts head us vs rest : List Token} {ds : List Declaration}
      {items : List Item} :
      t.kind ≠ .atKeyword → endsHead t.kind = false →
      collect endsHead 0 (t :: ts) = (head, e :: us) → e.is .braceOpen = true →
      DeclarationsRead us ds vs → ItemsRead depth vs items rest →
      ItemsRead depth (t :: ts) (.rule (Spacing.selector.join head) ds :: items) rest
  | statement {depth : Nat} {t : Token} {ts head us rest : List Token} {items : List Item} :
      t.kind = .atKeyword → collect endsHead 0 ts = (head, us) →
      (∀ e ∈ us.head?, e.is .braceOpen = false) → ItemsRead depth us items rest →
      ItemsRead depth (t :: ts) (.statement t.ruleName (Spacing.params.join head) :: items) rest
  | descriptors {depth : Nat} {t e : Token} {ts head us vs rest : List Token}
      {ds : List Declaration} {items : List Item} :
      t.kind = .atKeyword → holdsItems t.ruleName = false →
      collect endsHead 0 ts = (head, e :: us) → e.is .braceOpen = true →
      DeclarationsRead us ds vs → ItemsRead depth vs items rest →
      ItemsRead depth (t :: ts) (.descriptors t.ruleName (Spacing.params.join head) ds :: items) rest
  | group {depth : Nat} {t e : Token} {ts head us vs rest : List Token} {body items : List Item} :
      t.kind = .atKeyword → holdsItems t.ruleName = true →
      collect endsHead 0 ts = (head, e :: us) → e.is .braceOpen = true → depth < maxNesting →
      ItemsRead (depth + 1) us body vs → ItemsRead depth vs items rest →
      ItemsRead depth (t :: ts) (.group t.ruleName (Spacing.params.join head) body :: items) rest

theorem Token.is_iff {t : Token} {m : Mark} : t.is m = true ↔ t.kind = .mark m := by
  simp [Token.is]

theorem Token.not_is_of_kind {t : Token} {m : Mark} (h : t.kind ≠ .mark m) : ¬t.is m = true :=
  fun ht => h (Token.is_iff.1 ht)

/-- A token is one mark at most. -/
theorem Token.not_is_of_is {t : Token} {m m' : Mark} (h : t.is m = true) (hne : m ≠ m') : ¬t.is m' = true :=
  Token.not_is_of_kind fun hk => hne (Kind.mark.inj ((Token.is_iff.1 h).symm.trans hk))

end TieredStyle.Css
