import Mathlib

/-!
# Tokens of a dependency condition

`getToken` (`mbd.dep.c`) cuts the text of a dependency condition (`bsub -w`) into tokens: it skips
blanks, tries the entries of `tokenTable` in their order, and reads anything else as a name, quoted
or plain. A keyword that goes on with a letter or a digit is the beginning of a name.

- `getToken`: the next token, its type and the text behind it.
- `Behind`, `Tokens`: what is left of a text behind some tokens, and the texts that are cut into
  tokens to their end.
- `getToken_stays`: the only token that takes nothing off the text is an empty name.
- `getToken_of_foreign`, `foreign_of_getToken`: that token is read exactly at a character with
  which no token begins.
-/

namespace Volclava.Dep

open List

/-- `dptType`; no token has the type `true`, which a node has whose exit code is not asked for. -/
inductive DptType where
  | and
  | or
  | not
  | left
  | right
  | done
  | exit
  | started
  | name
  | ended
  | numpend
  | numhold
  | numrun
  | numexit
  | numdone
  | numstart
  | numended
  | comma
  | gt
  | ge
  | lt
  | le
  | eq
  | ne
  | postDone
  | postErr
  | true
  | window
  deriving DecidableEq

/-! ## Characters -/

def isSpace (c : Char) : Bool :=
  c == ' ' || c == '\t' || c == '\n' || c == '\r' || c == '\x0b' || c == '\x0c'

def isQuote (c : Char) : Bool := c == '\"' || c == '\''

/-- `IS_VALIDCHAR`. -/
def isValidChar (c : Char) : Bool :=
  c.isAlphanum || c == '*' || c == '_' || c == '.' || c == ':' || c == '%' || c == ',' ||
    c == '@' || c == '/' || c == '[' || c == ']' || c == '-'

def isDelim (c : Char) : Bool := c == ',' || c == ' '

/-! ## The table -/

structure TokenEntry where
  name : List Char
  type : DptType
  checkCha : Bool

/-- `tokenTable`, in the order in which the entries are tried. -/
def tokenTable : List TokenEntry :=
  [⟨['('], .left, false⟩,
   ⟨[')'], .right, false⟩,
   ⟨['&', '&'], .and, false⟩,
   ⟨['|', '|'], .or, false⟩,
   ⟨['e', 'x', 'i', 't'], .exit, true⟩,
   ⟨['s', 't', 'a', 'r', 't', 'e', 'd'], .started, true⟩,
   ⟨['e', 'n', 'd', 'e', 'd'], .ended, true⟩,
   ⟨['t', 'i', 'm', 'e'], .window, true⟩,
   ⟨['d', 'o', 'n', 'e'], .done, true⟩,
   ⟨['p', 'o', 's', 't', '_', 'd', 'o', 'n', 'e'], .postDone, true⟩,
   ⟨['p', 'o', 's', 't', '_', 'e', 'r', 'r'], .postErr, true⟩,
   ⟨['n', 'u', 'm', 'p', 'e', 'n', 'd'], .numpend, true⟩,
   ⟨['n', 'u', 'm', 'h', 'o', 'l', 'd'], .numhold, true⟩,
   ⟨['n', 'u', 'm', 'r', 'u', 'n'], .numrun, true⟩,
   ⟨['n', 'u', 'm', 'e', 'x', 'i', 't'], .numexit, true⟩,
   ⟨['n', 'u', 'm', 'd', 'o', 'n', 'e'], .numdone, true⟩,
   ⟨['n', 'u', 'm', 's', 't', 'a', 'r', 't'], .numstart, true⟩,
   ⟨['n', 'u', 'm', 'e', 'n', 'd', 'e', 'd'], .numended, true⟩,
   ⟨[','], .comma, false⟩,
   ⟨['>', '='], .ge, false⟩,
   ⟨['<', '='], .le, false⟩,
   ⟨['=', '='], .eq, false⟩,
   ⟨['!', '='], .ne, false⟩,
   ⟨['<'], .lt, false⟩,
   ⟨['>'], .gt, false⟩,
   ⟨['!'], .not, false⟩]

theorem tokenTable_names : ∀ e ∈ tokenTable, 0 < e.name.length := by decide

/-! ## Names -/

/-- The characters a name may have in the buffer, `4*MAXLINELEN - 1`. -/
def tokenRoom : Nat := 16383

/-- The loop over a plain name, with room for `n` more characters. -/
def plainRun : Nat → List Char → List Char × List Char
  | n + 1, c :: cs =>
    if isValidChar c && !isDelim c then (c :: (plainRun n cs).1, (plainRun n cs).2)
    else ([], c :: cs)
  | _, s => ([], s)

/-- The loop over a quoted name, which takes the closing quote along. -/
def quotedRun (quote : Char) : Nat → List Char → List Char × List Char
  | n + 1, c :: cs =>
    if c = quote then ([c], cs) else (c :: (quotedRun quote n cs).1, (quotedRun quote n cs).2)
  | _, s => ([], s)

/-- The rest of a name of which `seen` is in the buffer already. -/
def nameToken (seen s : List Char) : List Char × List Char :=
  match s with
  | c :: cs =>
    if isQuote c then
      (seen ++ c :: (quotedRun c (tokenRoom - seen.length - 1) cs).1,
        (quotedRun c (tokenRoom - seen.length - 1) cs).2)
    else (seen ++ (plainRun (tokenRoom - seen.length) s).1,
      (plainRun (tokenRoom - seen.length) s).2)
  | [] => (seen, [])

/-! ## The next token -/

/-- A keyword is part of a name. -/
def goesOn : List Char → Bool
  | c :: _ => c.isAlphanum || c == '*'
  | [] => false

/-- `getToken`: the token, its type and the text behind it. -/
def getToken (s : List Char) : Option (List Char × DptType × List Char) :=
  match s.dropWhile isSpace with
  | [] => none
  | c :: cs =>
    match tokenTable.find? fun e => e.name.isPrefixOf (c :: cs) with
    | some e =>
      if e.checkCha && goesOn ((c :: cs).drop e.name.length) then
        some ((nameToken e.name ((c :: cs).drop e.name.length)).1, .name,
          (nameToken e.name ((c :: cs).drop e.name.length)).2)
      else some (e.name, e.type, (c :: cs).drop e.name.length)
    | none => some ((nameToken [] (c :: cs)).1, .name, (nameToken [] (c :: cs)).2)

example :
    getToken ['d', 'o', 'n', 'e', '2', '('] = some (['d', 'o', 'n', 'e', '2'], .name, ['(']) := by
  decide

/-! ## How much text a token takes -/

theorem plainRun_length (n : Nat) (s : List Char) :
    (plainRun n s).1.length + (plainRun n s).2.length = s.length := by
  induction n generalizing s with
  | zero => simp [plainRun]
  | succ n ih =>
    cases s with
    | nil => rfl
    | cons c cs =>
      unfold plainRun
      split_ifs
      · have := ih cs
        simp only [length_cons]
        omega
      · simp

theorem quotedRun_length (quote : Char) (n : Nat) (s : List Char) :
    (quotedRun quote n s).1.length + (quotedRun quote n s).2.length = s.length := by
  induction n generalizing s with
  | zero => simp [quotedRun]
  | succ n ih =>
    cases s with
    | nil => rfl
    | cons c cs =>
      unfold quotedRun
      split_ifs
      · simp only [length_cons, length_nil]
        omega
      · have := ih cs
        simp only [length_cons]
        omega

/-- What a name takes off the text goes to its token. -/
theorem nameToken_length (seen s : List Char) :
    (nameToken seen s).1.length + (nameToken seen s).2.length = seen.length + s.length := by
  cases s with
  | nil => simp [nameToken]
  | cons c cs =>
    unfold nameToken
    dsimp only
    split_ifs
    · have := quotedRun_length c (tokenRoom - seen.length - 1) cs
      simp only [length_append, length_cons]
      omega
    · have := plainRun_length (tokenRoom - seen.length) (c :: cs)
      simp only [length_append]
      omega

/-- A name keeps the keyword it begins with. -/
theorem nameToken_seen (seen s : List Char) : seen.length ≤ (nameToken seen s).1.length := by
  cases s with
  | nil => exact le_refl _
  | cons c cs =>
    unfold nameToken
    dsimp only
    split_ifs
    · simp
    · simp

variable {cs : List Char}

theorem plainRun_cons {c : Char} (h : (isValidChar c && !isDelim c) = true) :
    (plainRun tokenRoom (c :: cs)).1 ≠ [] := by
  show (plainRun (16382 + 1) (c :: cs)).1 ≠ []
  rw [plainRun, if_pos h]
  simp

theorem plainRun_cons_foreign {c : Char}
    (h : (isValidChar c && !isDelim c) = false) :
    plainRun tokenRoom (c :: cs) = ([], c :: cs) := by
  show plainRun (16382 + 1) (c :: cs) = _
  rw [plainRun, if_neg (by simp [h])]

/-- An empty name stands at a character that no name has, and takes nothing off the text. -/
theorem nameToken_eq_nil_iff (c : Char) (cs : List Char) :
    (nameToken [] (c :: cs)).1 = [] ↔
      isQuote c = false ∧ (isValidChar c && !isDelim c) = false := by
  unfold nameToken
  dsimp only
  cases hquote : isQuote c with
  | true => simp
  | false =>
    cases hplain : (isValidChar c && !isDelim c) with
    | true => simpa using plainRun_cons hplain
    | false => simp [plainRun_cons_foreign hplain]

theorem nameToken_snd_of_nil {c : Char} (h : (nameToken [] (c :: cs)).1 = []) :
    (nameToken [] (c :: cs)).2 = c :: cs := by
  obtain ⟨hquote, hplain⟩ := (nameToken_eq_nil_iff c cs).mp h
  simp [nameToken, hquote, plainRun_cons_foreign hplain]

variable {type : DptType}

/-- **No token adds to the text, and one that takes nothing off it is an empty name.** -/
theorem getToken_stays {s tok rest : List Char} (h : getToken s = some (tok, type, rest)) :
    rest.length < s.length ∨ tok = [] ∧ type = .name ∧ rest = s := by
  unfold getToken at h
  have hdrop := length_dropWhile_le isSpace s
  cases hs : s.dropWhile isSpace with
  | nil => simp [hs] at h
  | cons c cs =>
    rw [hs] at h hdrop
    dsimp only at h
    cases he : tokenTable.find? fun e => e.name.isPrefixOf (c :: cs) with
    | some e =>
      rw [he] at h
      dsimp only at h
      have hpos := tokenTable_names e (mem_of_find?_eq_some he)
      have hpre : e.name <+: c :: cs := by simpa using List.find?_some he
      have hlength := hpre.length_le
      left
      split_ifs at h with hname
      · cases h
        have hlen := nameToken_length e.name ((c :: cs).drop e.name.length)
        have htok := nameToken_seen e.name ((c :: cs).drop e.name.length)
        rw [length_drop] at hlen
        omega
      · cases h
        rw [length_drop]
        omega
    | none =>
      rw [he] at h
      cases h
      have hlen := nameToken_length [] (c :: cs)
      by_cases hnil : (nameToken [] (c :: cs)).1 = []
      · have hrest := nameToken_snd_of_nil hnil
        by_cases hsp : (c :: cs).length < s.length
        · left
          rw [hrest]
          exact hsp
        · right
          refine ⟨hnil, rfl, ?_⟩
          rw [hrest, ← hs]
          refine (dropWhile_suffix isSpace).eq_of_length ?_
          rw [hs]
          omega
      · left
        have := length_pos_iff.mpr hnil
        simp only [length_nil, zero_add] at hlen
        omega

/-- A token that is not a name takes something off the text. -/
theorem getToken_lt {s tok rest : List Char}
    (h : getToken s = some (tok, type, rest)) (htype : type ≠ .name) :
    rest.length < s.length := by
  rcases getToken_stays h with hlt | ⟨-, hname, -⟩
  · exact hlt
  · exact absurd hname htype

/-! ## The tokens of a text -/

/-- `rest` is left of the text `s` behind some of its tokens. -/
def Behind : List Char → List Char → Prop :=
  Relation.ReflTransGen fun s rest => ∃ tok type, getToken s = some (tok, type, rest)

theorem getToken_behind {s tok rest : List Char} (h : getToken s = some (tok, type, rest)) :
    Behind s rest := .single ⟨tok, type, h⟩

theorem Behind.length_le {s rest : List Char} (h : Behind s rest) : rest.length ≤ s.length := by
  induction h with
  | refl => exact le_refl _
  | tail _ hlast ih =>
    obtain ⟨tok, type, htok⟩ := hlast
    rcases getToken_stays htok with hlt | ⟨-, -, rfl⟩
    · exact hlt.le.trans ih
    · exact ih

/-- The text consists of blanks and tokens: nowhere on the way to its end is an empty name read. -/
inductive Tokens : List Char → Prop where
  | blank {s : List Char} (h : getToken s = none) : Tokens s
  | token {s tok rest : List Char} {type : DptType} (h : getToken s = some (tok, type, rest))
      (hne : tok ≠ []) (hrest : Tokens rest) : Tokens s

theorem Tokens.of_getToken {s tok rest : List Char} (hs : Tokens s)
    (h : getToken s = some (tok, type, rest)) : tok ≠ [] ∧ Tokens rest := by
  cases hs with
  | blank hnone => simp [hnone] at h
  | token htok hne hrest =>
    rw [htok] at h
    cases h
    exact ⟨hne, hrest⟩

theorem Tokens.behind {s rest : List Char} (hs : Tokens s) (h : Behind s rest) : Tokens rest := by
  induction h with
  | refl => exact hs
  | tail _ hlast ih =>
    obtain ⟨tok, type, htok⟩ := hlast
    exact (ih.of_getToken htok).2

/-! ## Characters that begin no token -/

/-- The text begins with a character that is neither a blank nor the beginning of a token, such as
`=`, `;` or a single `&`. -/
def Foreign : List Char → Prop
  | [] => False
  | c :: cs =>
    isSpace c = false ∧ isQuote c = false ∧ (isValidChar c && !isDelim c) = false ∧
      ∀ e ∈ tokenTable, e.name.isPrefixOf (c :: cs) = false

instance : DecidablePred Foreign
  | [] => inferInstanceAs (Decidable False)
  | _ :: _ => inferInstanceAs (Decidable (_ ∧ _ ∧ _ ∧ _))

/-- At such a character the token is an empty name, and the text stays where it is. -/
theorem getToken_of_foreign {s : List Char} (h : Foreign s) :
    getToken s = some ([], .name, s) := by
  cases s with
  | nil => exact h.elim
  | cons c cs =>
    obtain ⟨hspace, hquote, hplain, htable⟩ := h
    have hfind : (tokenTable.find? fun e => e.name.isPrefixOf (c :: cs)) = none := by
      rw [List.find?_eq_none]
      intro e he
      simp [htable e he]
    have hnil := (nameToken_eq_nil_iff c cs).mpr ⟨hquote, hplain⟩
    simp only [getToken, dropWhile_cons, hspace, Bool.false_eq_true, if_false, hfind, hnil,
      nameToken_snd_of_nil hnil]

/-- The only tokens that take nothing off the text are those. -/
theorem foreign_of_getToken {s tok : List Char}
    (h : getToken s = some (tok, type, s)) : Foreign s := by
  have hstays := getToken_stays h
  simp only [lt_irrefl, false_or] at hstays
  obtain ⟨rfl, rfl, -⟩ := hstays
  unfold getToken at h
  cases hs : s.dropWhile isSpace with
  | nil => simp [hs] at h
  | cons c cs =>
    rw [hs] at h
    dsimp only at h
    cases he : tokenTable.find? fun e => e.name.isPrefixOf (c :: cs) with
    | some e =>
      -- A keyword is not empty, whether or not it goes on as a name.
      rw [he] at h
      have hpos := tokenTable_names e (mem_of_find?_eq_some he)
      have hseen := nameToken_seen e.name ((c :: cs).drop e.name.length)
      dsimp only at h
      split_ifs at h
      · have hnil := (Prod.mk.inj (Option.some.inj h)).1
        rw [hnil, length_nil] at hseen
        omega
      · have hname : e.name = [] := (Prod.mk.inj (Option.some.inj h)).1
        simp [hname] at hpos
    | none =>
      rw [he] at h
      have hpair := Prod.mk.inj (Option.some.inj h)
      have hsame : s = c :: cs := by
        rw [← nameToken_snd_of_nil hpair.1]
        exact (Prod.mk.inj hpair.2).2.symm
      obtain ⟨hquote, hplain⟩ := (nameToken_eq_nil_iff c cs).mp hpair.1
      rw [hsame]
      refine ⟨?_, hquote, hplain, ?_⟩
      · have hhead := head_dropWhile_not isSpace (l := s) (by simp [hs])
        simpa [hs] using hhead
      · intro e hmem
        exact Bool.eq_false_of_not_eq_true (List.find?_eq_none.mp he e hmem)

end Volclava.Dep
