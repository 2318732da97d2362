import Kotlinize.Config
import Kotlinize.Edited
import Kotlinize.Property.Body
import Kotlinize.Token.Spacing

namespace Kotlinize

/-!
# Computed properties

A Swift property holds its accessors in braces behind its type. In Kotlin the accessors follow
the type, with parentheses behind `get` and `set`, and a property without a setter is declared
by `val`.

* `openGetter`, `openSetter`, `unclosed` — what happens to the tokens inside the braces.
* `PropertyBody.suffixed` — the same property with its accessors behind the type.
* `suffixAccessors` — the pass over a text.
-/

/-! ### Accessors behind the type -/

/-- The parentheses of an accessor around a parameter's name, or around nothing. -/
def parentheses (parameter : List Token) : List Token :=
  Bracket.round.openToken :: (parameter ++ [Bracket.round.closeToken])

/-- The tokens with empty parentheses behind the getter's word and whitespace in front of it. -/
def openGetter (body : List Token) : List Token :=
  match accessor? "get" body with
  | none => body
  | some a => a.before ++ gapAfter a.before ++ a.word :: (parentheses [] ++ a.after)

/-- The tokens with a parameter for the setter, unless it names one itself. -/
def openSetter (config : Config) (body : List Token) : List Token :=
  match accessor? "set" body with
  | none => body
  | some a =>
    if (significant a.after).head?.any Bracket.curly.opens then
      a.before
        ++ a.word :: (parentheses [.identifier config.implicitSetterParameter] ++ a.after)
    else body

/-- Whether only whitespace stands between a closing brace and the end of its line or text. -/
def endsLine (tail : List Token) : Bool :=
  (tail.dropWhile Token.isWhitespace).head?.all Token.isLinebreak

/-- The inside of a property body without its closing brace: the whitespace in front of the
brace goes with it, and the line in front if the brace ended one by itself. -/
def unclosed (inside tail : List Token) : List Token :=
  let trimmed := dropEndIf Token.isWhitespace inside
  if endsLine tail then dropEndIf Token.isLinebreak trimmed else trimmed

namespace PropertyBody

/-- The tokens of a property whose statements become those of a getter. -/
def withGetter (p : PropertyBody) : List Token :=
  p.lead ++ gapAfter p.lead
    ++ .identifier "get" :: (parentheses [] ++ .space :: p.opener :: p.enclosed.whole)

/-- The tokens of a property whose accessors leave their braces. -/
def withoutBraces (config : Config) (p : PropertyBody) : List Token :=
  dropEndIf Token.isWhitespace p.lead
    ++ (openGetter (openSetter config (unclosed p.enclosed.inside p.enclosed.tail))
      ++ p.enclosed.tail)

/-- The property with its accessors behind its type: its keyword, which was `keyword`, and the
tokens after it; `none` if it stays as it is. -/
def suffixed (config : Config) (keyword : Token) (p : PropertyBody) :
    Option (Token × List Token) :=
  match p.form with
  | .other => none
  | .getter => some (constantKeyword, p.withGetter)
  | .accessors settable =>
    some (if settable then keyword else constantKeyword, p.withoutBraces config)

end PropertyBody

/-- The same for the property, if any, that a variable keyword followed by `ts` declares. -/
def suffixed? (config : Config) (keyword : Token) (ts : List Token) :
    Option (Token × List Token) :=
  match propertyBody? ts with
  | none => none
  | some p => p.suffixed config keyword

/-! ### The pass -/

/-- The number of variable keywords. -/
def variableCount (ts : List Token) : Nat := ts.countP isVariableKeyword

@[simp] theorem variableCount_append (as bs : List Token) :
    variableCount (as ++ bs) = variableCount as + variableCount bs :=
  List.countP_append

theorem variableCount_cons (t : Token) (ts : List Token) :
    variableCount (t :: ts) = variableCount ts + if isVariableKeyword t then 1 else 0 :=
  List.countP_cons

theorem variableCount_dropEndIf_le (p : Token → Bool) (ts : List Token) :
    variableCount (dropEndIf p ts) ≤ variableCount ts := by
  rcases dropEndIf_eq p ts with h | ⟨t, -, h⟩
  · exact Nat.le_of_eq (congrArg variableCount h)
  · have hc := congrArg variableCount h
    rw [variableCount_append] at hc
    omega

theorem variableCount_gapAfter (ts : List Token) : variableCount (gapAfter ts) = 0 := by
  rcases gapAfter_eq ts with h | h <;> rw [h] <;> rfl

theorem variableCount_openGetter (body : List Token) :
    variableCount (openGetter body) = variableCount body := by
  unfold openGetter
  split
  · rfl
  · rename_i a h
    rw [← (of_accessorAt? h).1]
    simp [Accessor.whole, variableCount_cons, variableCount_gapAfter, parentheses,
      Bracket.openToken, Bracket.closeToken, isVariableKeyword, Token.is]

theorem variableCount_openSetter (config : Config) (body : List Token) :
    variableCount (openSetter config body) = variableCount body := by
  unfold openSetter
  split
  · rfl
  · rename_i a h
    split
    · rw [← (of_accessorAt? h).1]
      simp [Accessor.whole, variableCount_cons, parentheses, Bracket.openToken, Bracket.closeToken,
        isVariableKeyword, Token.is, Token.identifier]
    · rfl

theorem variableCount_unclosed_le (inside tail : List Token) :
    variableCount (unclosed inside tail) ≤ variableCount inside := by
  unfold unclosed
  split
  · exact Nat.le_trans (variableCount_dropEndIf_le _ _) (variableCount_dropEndIf_le _ _)
  · exact variableCount_dropEndIf_le _ _

/-- Moving accessors makes no variable keyword. -/
theorem variableCount_suffixed?_le {config : Config} {keyword : Token} {ts : List Token}
    {r : Token × List Token} (h : suffixed? config keyword ts = some r) :
    variableCount r.2 ≤ variableCount ts := by
  unfold suffixed? at h
  split at h
  · cases h
  · rename_i p hp
    rw [← whole_of_propertyBody? hp]
    unfold PropertyBody.suffixed at h
    split at h
    · cases h
    · cases h
      simp [PropertyBody.withGetter, PropertyBody.whole, variableCount_cons, variableCount_gapAfter,
        parentheses, Bracket.openToken, Bracket.closeToken, isVariableKeyword, Token.is,
        Token.identifier, Token.space, Token.whitespace]
    · cases h
      have h₁ := variableCount_dropEndIf_le Token.isWhitespace p.lead
      have h₂ := variableCount_unclosed_le p.enclosed.inside p.enclosed.tail
      simp only [PropertyBody.withoutBraces, PropertyBody.whole, Enclosed.whole,
        variableCount_append, variableCount_cons, variableCount_openGetter,
        variableCount_openSetter]
      omega

theorem length_openGetter_le (body : List Token) :
    (openGetter body).length ≤ body.length + 3 := by
  unfold openGetter
  split
  · omega
  · rename_i a h
    have hg := length_gapAfter_le a.before
    rw [← (of_accessorAt? h).1]
    simp only [Accessor.whole, parentheses, List.length_append, List.length_cons, List.nil_append,
      List.length_nil]
    omega

theorem length_openSetter_le (config : Config) (body : List Token) :
    (openSetter config body).length ≤ body.length + 3 := by
  unfold openSetter
  split
  · omega
  · rename_i a h
    split
    · rw [← (of_accessorAt? h).1]
      simp only [Accessor.whole, parentheses, List.length_append, List.length_cons,
        List.cons_append, List.nil_append]
      omega
    · omega

theorem length_unclosed_le (inside tail : List Token) :
    (unclosed inside tail).length ≤ inside.length := by
  unfold unclosed
  split
  · exact Nat.le_trans (length_dropEndIf_le _ _) (length_dropEndIf_le _ _)
  · exact length_dropEndIf_le _ _

/-- Moving accessors adds at most a space, a word, two parentheses and a space. -/
theorem length_suffixed?_le {config : Config} {keyword : Token} {ts : List Token}
    {r : Token × List Token} (h : suffixed? config keyword ts = some r) :
    r.2.length ≤ ts.length + 5 := by
  unfold suffixed? at h
  split at h
  · cases h
  · rename_i p hp
    rw [← whole_of_propertyBody? hp]
    unfold PropertyBody.suffixed at h
    split at h
    · cases h
    · cases h
      have hg := length_gapAfter_le p.lead
      simp only [PropertyBody.withGetter, PropertyBody.whole, parentheses, List.length_append,
        List.length_cons, List.nil_append, List.length_nil]
      omega
    · cases h
      have h₁ := length_dropEndIf_le Token.isWhitespace p.lead
      have h₂ := length_unclosed_le p.enclosed.inside p.enclosed.tail
      have h₃ := length_openSetter_le config (unclosed p.enclosed.inside p.enclosed.tail)
      have h₄ := length_openGetter_le
        (openSetter config (unclosed p.enclosed.inside p.enclosed.tail))
      simp only [PropertyBody.withoutBraces, PropertyBody.whole, Enclosed.whole,
        List.length_append, List.length_cons]
      omega

/-- Puts the accessors of every computed property behind its type, property by property from
the front; the count is the number of properties changed. The list may grow, but each property
uses up a variable keyword. -/
def suffixAccessors (config : Config) : List Token → Edited
  | [] => .nil
  | t :: ts =>
    if _hv : isVariableKeyword t then
      match _h : suffixed? config t ts with
      | some (keyword, edited) => ((suffixAccessors config edited).cons keyword).counted 1
      | none => (suffixAccessors config ts).cons t
    else (suffixAccessors config ts).cons t
termination_by ts => ts.length + 6 * variableCount ts
decreasing_by
  · have h₁ : variableCount edited ≤ variableCount ts := variableCount_suffixed?_le _h
    have h₂ : edited.length ≤ ts.length + 5 := length_suffixed?_le _h
    simp only [variableCount_cons, List.length_cons, _hv, if_true]
    omega
  · simp only [variableCount_cons, List.length_cons]
    omega
  · simp only [variableCount_cons, List.length_cons]
    omega

end Kotlinize
