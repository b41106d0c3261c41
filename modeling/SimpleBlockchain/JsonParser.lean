import SimpleBlockchain.Variant

/-!
# The legacy JSON parser

`json::from_string` over a string stream. The parser takes unquoted tokens for
strings, skips commas wherever they stand, reads only the escapes `\t`, `\n`,
`\r` and `\\` as such, and does not look at what follows the first value. Each
nested array or object costs two levels of depth.
-/

namespace SimpleBlockchain

def eofChar : Char := Char.ofNat 255

/-- `parseEscape`, after the backslash. -/
def unescape (c : Char) : Char :=
  if c = 't' then '\t' else if c = 'n' then '\n' else if c = 'r' then '\r' else c

def skipWhiteSpace : Str → Except Exn (Bool × Str)
  | [] => .ok (false, [])
  | c :: s =>
      if c = ' ' ∨ c = '\t' ∨ c = '\n' ∨ c = '\r' then do
        let (_, rest) ← skipWhiteSpace s
        .ok (true, rest)
      else if c.toNat = 0 then .error ⟨.eof, "unexpected end of file"⟩
      else .ok (false, c :: s)

/-- `stringFromStream`, after the opening quote. -/
def stringBody : Str → Except Exn (Str × Str)
  | [] => .error ⟨.parseError, "EOF before closing '\"' in string '${token}'"⟩
  | c :: s =>
      if c = '\\' then
        match s with
        | [] => .error ⟨.parseError, "EOF before closing '\"' in string '${token}'"⟩
        | e :: s => do
            let (token, rest) ← stringBody s
            .ok (unescape e :: token, rest)
      else if c.toNat = 4 then
        .error ⟨.parseError, "EOF before closing '\"' in string '${token}'"⟩
      else if c = '"' then .ok ([], s)
      else do
        let (token, rest) ← stringBody s
        .ok (c :: token, rest)

def stringFromStream : Str → Except Exn (Str × Str)
  | '"' :: s => stringBody s
  | _ => .error ⟨.parseError, "Expected '\"' but read '${char}'"⟩

/-- A NUL ends the token and stays in the stream. -/
def stringFromToken : Str → Str × Str
  | [] => ([], [])
  | c :: s =>
      if c = '\\' then
        match s with
        | [] => ([eofChar], [])
        | e :: s => (unescape e :: (stringFromToken s).1, (stringFromToken s).2)
      else if c = '\t' ∨ c = ' ' ∨ c = '\n' then ([], s)
      else if c.isAlphanum ∨ c = '_' ∨ c = '-' ∨ c = '.' ∨ c = ':' ∨ c = '/' then
        (c :: (stringFromToken s).1, (stringFromToken s).2)
      else ([], c :: s)

/-- The digits and at most one dot, whether there was a dot, and the rest. -/
def numberBody (dot : Bool) : Str → Except Exn (Str × Bool × Str)
  | [] => .ok ([], dot, [])
  | c :: s =>
      if c = '.' then
        if dot then .error ⟨.parseError, "Can't parse a number with two decimal places"⟩
        else do
          let (ss, dot, rest) ← numberBody true s
          .ok (c :: ss, dot, rest)
      else if c.isDigit then do
        let (ss, dot, rest) ← numberBody dot s
        .ok (c :: ss, dot, rest)
      else .ok ([], dot, c :: s)

def numberFromStream (P : Platform) (s : Str) : Except Exn (Variant × Str) := do
  let neg := s.head? = some '-'
  let (ss, dot, rest) ← numberBody false (if neg then s.tail else s)
  let str := if neg then '-' :: ss else ss
  if rest.head?.any Char.isAlphanum then
    let (token, rest) := stringFromToken rest
    .ok (.string (str ++ token), rest)
  else if str = "-.".toList ∨ str = ".".toList ∨ str = "-".toList then
    .error ⟨.parseError, "Can't parse token \"${token}\" as a JSON numeric constant"⟩
  else if dot then do
    let v ← toDouble P str
    .ok (v, rest)
  else if neg then do
    let i ← toInt64 P str
    .ok (.int64 i, rest)
  else do
    let n ← toUInt64 P str
    .ok (.uint64 n, rest)

def isTokenChar (c : Char) : Bool := "nultrefas".toList.contains c

def tokenFromStream (s : Str) : Variant × Str :=
  let str := s.takeWhile isTokenChar
  let rest := s.dropWhile isTokenChar
  if str = "null".toList then (.null, rest)
  else if str = "true".toList then (.bool true, rest)
  else if str = "false".toList then (.bool false, rest)
  else
    let (token, rest) := stringFromToken rest
    (.string (str ++ token), rest)

/-- Inside an object the end of the stream is a parse error. -/
def catchEof {α : Type} : Except Exn α → Except Exn α
  | .ok a => .ok a
  | .error e => .error (if e.name = .eof then ⟨.parseError, "Unexpected EOF: ${e}"⟩ else e)

mutual

/-- The first argument bounds the number of nested calls; it does not limit a
call whose bound exceeds twice the length of the stream (`fromStream_fuel_succ`). -/
def variantFromStream (P : Platform) : ℕ → UInt32 → Str → Except Exn (Variant × Str)
  | 0, _, _ => .error ⟨.eof, "unexpected end of file"⟩
  | fuel + 1, maxDepth, s => do
      if maxDepth = 0 then
        .error ⟨.parseError, "Too many nested items in JSON input!"⟩
      else
        let (_, s) ← skipWhiteSpace s
        match s with
        | [] => .error ⟨.eof, "unexpected end of file"⟩
        | c :: rest =>
            if c = '"' then do
              let (token, rest) ← stringBody rest
              .ok (.string token, rest)
            else if c = '{' then do
              let (o, rest) ← catchEof (objectFromStream P fuel (maxDepth - 1) rest)
              .ok (.object o, rest)
            else if c = '[' then do
              let (_, rest) ← skipWhiteSpace rest
              let (a, rest) ← arrayFromStream P fuel (maxDepth - 1) rest
              .ok (.array a, rest)
            else if c = '-' ∨ c = '.' ∨ c.isDigit then numberFromStream P (c :: rest)
            else if c = 'n' ∨ c = 't' ∨ c = 'f' then .ok (tokenFromStream (c :: rest))
            else if c.toNat = 4 ∨ c = eofChar then .error ⟨.eof, "unexpected end of file"⟩
            else .error ⟨.parseError, "Unexpected char '${c}' in \"${s}\""⟩

/-- The loop of `objectFromStream`, after the opening brace. -/
def objectFromStream (P : Platform) : ℕ → UInt32 → Str → Except Exn (List (Str × Variant) × Str)
  | 0, _, _ => .error ⟨.eof, "unexpected end of file"⟩
  | fuel + 1, maxDepth, s => do
      if s.head? = some '}' then .ok ([], s.tail)
      else if s.head? = some ',' then objectFromStream P fuel maxDepth s.tail
      else
        let (skipped, s) ← skipWhiteSpace s
        if skipped then objectFromStream P fuel maxDepth s
        else
          let (key, s) ← stringFromStream s
          let (_, s) ← skipWhiteSpace s
          if s.head? ≠ some ':' then
            .error ⟨.parseError, "Expected ':' after key \"${key}\""⟩
          else
            let (val, s) ← variantFromStream P fuel (maxDepth - 1) s.tail
            let (o, s) ← objectFromStream P fuel maxDepth s
            .ok ((key, val) :: o, s)

/-- The loop of `arrayFromStream`, after the opening bracket. -/
def arrayFromStream (P : Platform) : ℕ → UInt32 → Str → Except Exn (List Variant × Str)
  | 0, _, _ => .error ⟨.eof, "unexpected end of file"⟩
  | fuel + 1, maxDepth, s => do
      if s.head? = some ']' then .ok ([], s.tail)
      else if s.head? = some ',' then arrayFromStream P fuel maxDepth s.tail
      else
        let (skipped, s) ← skipWhiteSpace s
        if skipped then arrayFromStream P fuel maxDepth s
        else
          let (v, s) ← variantFromStream P fuel (maxDepth - 1) s
          let (_, s) ← skipWhiteSpace s
          let (a, s) ← arrayFromStream P fuel maxDepth s
          .ok (v :: a, s)

end

def defaultMaxDepth : UInt32 := 200

/-- `json::from_string` with the parser that the node calls by default. -/
def fromString (P : Platform) (utf8Str : Str) : Except Exn Variant := do
  let (v, _) ← variantFromStream P (2 * utf8Str.length + 1) defaultMaxDepth utf8Str
  .ok v

/-! ## The bound on nested calls -/

section Length

variable {P : Platform} {s rest : Str}

theorem skipWhiteSpace_length {skipped : Bool} (h : skipWhiteSpace s = .ok (skipped, rest)) :
    rest.length ≤ s.length ∧ (skipped = true → rest.length < s.length) := by
  induction s generalizing skipped with
  | nil =>
      cases h
      simp
  | cons c s ih =>
      rw [skipWhiteSpace] at h
      split at h
      · obtain ⟨⟨skipped', rest'⟩, hs, h⟩ := bind_eq_ok.1 h
        cases h
        have := (ih hs).1
        rw [List.length_cons]
        omega
      · split at h
        · cases h
        · cases h
          simp

theorem stringBody_length {token : Str} (h : stringBody s = .ok (token, rest)) :
    rest.length < s.length := by
  fun_induction stringBody s generalizing token with
  | case1 => cases h
  | case2 => cases h
  | case3 e s ih =>
      obtain ⟨⟨token', rest'⟩, hs, h⟩ := bind_eq_ok.1 h
      cases h
      have := ih hs
      simp only [List.length_cons]
      omega
  | case4 => cases h
  | case5 =>
      cases h
      exact Nat.lt_succ_self _
  | case6 c s _ _ _ ih =>
      obtain ⟨⟨token', rest'⟩, hs, h⟩ := bind_eq_ok.1 h
      cases h
      exact Nat.lt_succ_of_lt (ih hs)

theorem stringFromToken_length (s : Str) : (stringFromToken s).2.length ≤ s.length := by
  fun_induction stringFromToken s <;> simp only [List.length_cons, List.length_nil] <;> omega

theorem numberBody_length {dot dot' : Bool} {ss : Str}
    (h : numberBody dot s = .ok (ss, dot', rest)) : rest.length ≤ s.length := by
  fun_induction numberBody dot s generalizing ss dot' with
  | case1 =>
      cases h
      exact Nat.le_refl _
  | case2 => cases h
  | case3 dot s _ ih =>
      obtain ⟨⟨ss', dot'', rest'⟩, hs, h⟩ := bind_eq_ok.1 h
      cases h
      exact Nat.le_succ_of_le (ih hs)
  | case4 dot c s _ _ ih =>
      obtain ⟨⟨ss', dot'', rest'⟩, hs, h⟩ := bind_eq_ok.1 h
      cases h
      exact Nat.le_succ_of_le (ih hs)
  | case5 =>
      cases h
      exact Nat.le_refl _

theorem numberBody_length_lt {c : Char} (hc : c = '.' ∨ c.isDigit) {dot dot' : Bool} {ss : Str}
    (h : numberBody dot (c :: s) = .ok (ss, dot', rest)) : rest.length < (c :: s).length := by
  rw [numberBody] at h
  split at h
  · split at h
    · cases h
    · obtain ⟨⟨ss', dot'', rest'⟩, hs, h⟩ := bind_eq_ok.1 h
      cases h
      exact Nat.lt_succ_of_le (numberBody_length hs)
  next hdot =>
    rw [if_pos (hc.resolve_left hdot)] at h
    obtain ⟨⟨ss', dot'', rest'⟩, hs, h⟩ := bind_eq_ok.1 h
    cases h
    exact Nat.lt_succ_of_le (numberBody_length hs)

theorem numberFromStream_length {c : Char} (hc : c = '-' ∨ c = '.' ∨ c.isDigit) {v : Variant}
    (h : numberFromStream P (c :: s) = .ok (v, rest)) : rest.length < (c :: s).length := by
  obtain ⟨⟨ss, dot, rest'⟩, hs, h⟩ := bind_eq_ok.1 h
  have hlt : rest'.length < (c :: s).length := by
    by_cases hneg : c = '-'
    · simp only [List.head?_cons, hneg, if_true, List.tail_cons] at hs
      exact Nat.lt_succ_of_le (numberBody_length hs)
    · simp only [List.head?_cons, Option.some.injEq, hneg, if_false] at hs
      exact numberBody_length_lt (hc.resolve_left hneg) hs
  refine Nat.lt_of_le_of_lt ?_ hlt
  dsimp only at h
  generalize (if (c :: s).head? = some '-' then '-' :: ss else ss) = str at h
  split at h
  · cases h
    exact stringFromToken_length rest'
  split at h
  · cases h
  split at h
  · obtain ⟨_, _, h⟩ := bind_eq_ok.1 h
    cases h
    exact Nat.le_refl _
  split at h
  all_goals
    obtain ⟨_, _, h⟩ := bind_eq_ok.1 h
    cases h
    exact Nat.le_refl _

theorem tokenFromStream_length {c : Char} (hc : isTokenChar c) :
    (tokenFromStream (c :: s)).2.length < (c :: s).length := by
  have hdrop : ((c :: s).dropWhile isTokenChar).length < (c :: s).length := by
    rw [List.dropWhile_cons_of_pos hc]
    exact Nat.lt_succ_of_le ((List.dropWhile_sublist _).length_le)
  rw [tokenFromStream]
  split
  · exact hdrop
  split
  · exact hdrop
  split
  · exact hdrop
  · exact Nat.lt_of_le_of_lt (stringFromToken_length _) hdrop

theorem isTokenChar_of {c : Char} (hc : c = 'n' ∨ c = 't' ∨ c = 'f') : isTokenChar c := by
  rcases hc with rfl | rfl | rfl <;> decide

theorem tail_length {c : Char} (h : s.head? = some c) : s.tail.length < s.length := by
  cases s with
  | nil => cases h
  | cons d s => exact Nat.lt_succ_self _

theorem stringFromStream_length {token : Str} (h : stringFromStream s = .ok (token, rest)) :
    rest.length < s.length := by
  unfold stringFromStream at h
  split at h
  · exact Nat.lt_succ_of_lt (stringBody_length h)
  · cases h

theorem catchEof_eq_ok {α : Type} {x : Except Exn α} {a : α} : catchEof x = .ok a ↔ x = .ok a := by
  cases x <;> simp [catchEof]

def Shortens {α : Type} (parse : UInt32 → Str → Except Exn (α × Str)) : Prop :=
  ∀ d s a rest, parse d s = .ok (a, rest) → rest.length < s.length

theorem variantFromStream_shortens {fuel : ℕ} (iho : Shortens (objectFromStream P fuel))
    (iha : Shortens (arrayFromStream P fuel)) : Shortens (variantFromStream P (fuel + 1)) := by
  intro d s v rest h
  rw [variantFromStream] at h
  split at h
  · cases h
  obtain ⟨⟨skipped, s'⟩, hskip, h⟩ := bind_eq_ok.1 h
  have hle := (skipWhiteSpace_length hskip).1
  cases s' with
  | nil => cases h
  | cons c s' =>
      refine Nat.lt_of_lt_of_le ?_ hle
      simp only at h
      split at h
      · obtain ⟨⟨token, rest'⟩, hs, h⟩ := bind_eq_ok.1 h
        cases h
        exact Nat.lt_succ_of_lt (stringBody_length hs)
      split at h
      · obtain ⟨⟨o, rest'⟩, hs, h⟩ := bind_eq_ok.1 h
        cases h
        exact Nat.lt_succ_of_lt (iho _ _ _ _ (catchEof_eq_ok.1 hs))
      split at h
      · obtain ⟨⟨_, s''⟩, hskip', h⟩ := bind_eq_ok.1 h
        obtain ⟨⟨a, rest'⟩, hs, h⟩ := bind_eq_ok.1 h
        cases h
        have hlt : rest'.length < s''.length := iha _ _ _ _ hs
        have hle' : s''.length ≤ s'.length := (skipWhiteSpace_length hskip').1
        exact Nat.lt_succ_of_lt (Nat.lt_of_lt_of_le hlt hle')
      split at h
      next hc => exact numberFromStream_length hc h
      split at h
      next hc =>
        rw [Except.ok.injEq] at h
        have htoken := tokenFromStream_length (s := s') (isTokenChar_of hc)
        rwa [h] at htoken
      split at h <;> cases h

theorem objectFromStream_shortens {fuel : ℕ} (ihv : Shortens (variantFromStream P fuel))
    (iho : Shortens (objectFromStream P fuel)) : Shortens (objectFromStream P (fuel + 1)) := by
  intro d s o rest h
  rw [objectFromStream] at h
  split at h
  next hclose =>
    cases h
    exact tail_length hclose
  split at h
  next hcomma =>
    exact Nat.lt_trans (iho _ _ _ _ h) (tail_length hcomma)
  obtain ⟨⟨skipped, s₁⟩, hskip, h⟩ := bind_eq_ok.1 h
  have hle : s₁.length ≤ s.length := (skipWhiteSpace_length hskip).1
  dsimp only at h
  split at h
  · exact Nat.lt_of_lt_of_le (iho _ _ _ _ h) hle
  obtain ⟨⟨key, s₂⟩, hkey, h⟩ := bind_eq_ok.1 h
  obtain ⟨⟨_, s₃⟩, hskip', h⟩ := bind_eq_ok.1 h
  have hkeylt : s₂.length < s₁.length := stringFromStream_length hkey
  have hle' : s₃.length ≤ s₂.length := (skipWhiteSpace_length hskip').1
  dsimp only at h
  split at h
  · cases h
  next hcolon =>
  obtain ⟨⟨val, s₄⟩, hval, h⟩ := bind_eq_ok.1 h
  obtain ⟨⟨o', s₅⟩, ho, h⟩ := bind_eq_ok.1 h
  rw [Except.ok.injEq, Prod.mk.injEq] at h
  obtain ⟨_, rfl⟩ := h
  change s₅.length < s.length
  have hvallt : s₄.length < s₃.tail.length := ihv _ _ _ _ hval
  have holt : s₅.length < s₄.length := iho _ _ _ _ ho
  rw [List.length_tail] at hvallt
  omega

theorem arrayFromStream_shortens {fuel : ℕ} (ihv : Shortens (variantFromStream P fuel))
    (iha : Shortens (arrayFromStream P fuel)) : Shortens (arrayFromStream P (fuel + 1)) := by
  intro d s a rest h
  rw [arrayFromStream] at h
  split at h
  next hclose =>
    cases h
    exact tail_length hclose
  split at h
  next hcomma =>
    exact Nat.lt_trans (iha _ _ _ _ h) (tail_length hcomma)
  obtain ⟨⟨skipped, s₁⟩, hskip, h⟩ := bind_eq_ok.1 h
  have hle : s₁.length ≤ s.length := (skipWhiteSpace_length hskip).1
  dsimp only at h
  split at h
  · exact Nat.lt_of_lt_of_le (iha _ _ _ _ h) hle
  obtain ⟨⟨v, s₂⟩, hv, h⟩ := bind_eq_ok.1 h
  obtain ⟨⟨_, s₃⟩, hskip', h⟩ := bind_eq_ok.1 h
  obtain ⟨⟨a', s₄⟩, ha, h⟩ := bind_eq_ok.1 h
  rw [Except.ok.injEq, Prod.mk.injEq] at h
  obtain ⟨_, rfl⟩ := h
  change s₄.length < s.length
  have hvlt : s₂.length < s₁.length := ihv _ _ _ _ hv
  have hle' : s₃.length ≤ s₂.length := (skipWhiteSpace_length hskip').1
  have halt : s₄.length < s₃.length := iha _ _ _ _ ha
  omega

theorem fromStream_length (fuel : ℕ) : Shortens (variantFromStream P fuel) ∧
    Shortens (objectFromStream P fuel) ∧ Shortens (arrayFromStream P fuel) := by
  induction fuel with
  | zero => refine ⟨?_, ?_, ?_⟩ <;> rintro d s v rest ⟨⟩
  | succ fuel ih =>
      obtain ⟨ihv, iho, iha⟩ := ih
      exact ⟨variantFromStream_shortens iho iha, objectFromStream_shortens ihv iho,
        arrayFromStream_shortens ihv iha⟩

end Length

section Bound

variable {P : Platform} {fuel : ℕ}

/-- With this bound on nested calls, the parser of a short stream does not reach it, so one
more changes nothing. -/
def Suffices {α : Type} (parse : ℕ → UInt32 → Str → Except Exn (α × Str)) (k fuel : ℕ) : Prop :=
  ∀ d s, 2 * s.length + k ≤ fuel → parse fuel d s = parse (fuel + 1) d s

theorem variantFromStream_suffices (iho : Suffices (objectFromStream P) 2 fuel)
    (iha : Suffices (arrayFromStream P) 2 fuel) :
    Suffices (variantFromStream P) 1 (fuel + 1) := by
  intro d s hf
  rw [variantFromStream, variantFromStream]
  refine ite_congr rfl (fun _ => rfl) fun _ => ?_
  refine bind_congr_of_ok fun ⟨skipped, s'⟩ hskip => ?_
  have hle : s'.length ≤ s.length := (skipWhiteSpace_length hskip).1
  cases s' with
  | nil => rfl
  | cons c s' =>
      rw [List.length_cons] at hle
      dsimp only
      refine ite_congr rfl (fun _ => rfl) fun _ => ite_congr rfl (fun _ => ?_) fun _ =>
        ite_congr rfl (fun _ => ?_) fun _ => rfl
      · rw [iho (d - 1) s' (by omega)]
      · refine bind_congr_of_ok fun ⟨_, s''⟩ hskip' => ?_
        have hle' : s''.length ≤ s'.length := (skipWhiteSpace_length hskip').1
        dsimp only
        rw [iha (d - 1) s'' (by omega)]

theorem objectFromStream_suffices (ihv : Suffices (variantFromStream P) 1 fuel)
    (iho : Suffices (objectFromStream P) 2 fuel) :
    Suffices (objectFromStream P) 2 (fuel + 1) := by
  intro d s hf
  rw [objectFromStream, objectFromStream]
  refine ite_congr rfl (fun _ => rfl) fun _ => ite_congr rfl (fun hcomma => ?_) fun _ => ?_
  · have hlt := tail_length hcomma
    exact iho d s.tail (by omega)
  refine bind_congr_of_ok fun ⟨skipped, s₁⟩ hskip => ?_
  obtain ⟨hle, hskipped⟩ : s₁.length ≤ s.length ∧ (skipped = true → s₁.length < s.length) :=
    skipWhiteSpace_length hskip
  refine ite_congr rfl (fun hs => ?_) fun _ => ?_
  · have hlt := hskipped hs
    exact iho d s₁ (by omega)
  refine bind_congr_of_ok fun ⟨key, s₂⟩ hkey => ?_
  have hkeylt : s₂.length < s₁.length := stringFromStream_length hkey
  refine bind_congr_of_ok fun ⟨_, s₃⟩ hskip' => ?_
  have hle' : s₃.length ≤ s₂.length := (skipWhiteSpace_length hskip').1
  refine ite_congr rfl (fun _ => rfl) fun _ => ?_
  have htail : s₃.tail.length = s₃.length - 1 := List.length_tail
  dsimp only
  rw [ihv (d - 1) s₃.tail (by omega)]
  refine bind_congr_of_ok fun ⟨val, s₄⟩ hval => ?_
  have hvallt : s₄.length < s₃.tail.length := (fromStream_length (fuel + 1)).1 _ _ _ _ hval
  dsimp only
  rw [iho d s₄ (by omega)]

theorem arrayFromStream_suffices (ihv : Suffices (variantFromStream P) 1 fuel)
    (iha : Suffices (arrayFromStream P) 2 fuel) :
    Suffices (arrayFromStream P) 2 (fuel + 1) := by
  intro d s hf
  rw [arrayFromStream, arrayFromStream]
  refine ite_congr rfl (fun _ => rfl) fun _ => ite_congr rfl (fun hcomma => ?_) fun _ => ?_
  · have hlt := tail_length hcomma
    exact iha d s.tail (by omega)
  refine bind_congr_of_ok fun ⟨skipped, s₁⟩ hskip => ?_
  obtain ⟨hle, hskipped⟩ : s₁.length ≤ s.length ∧ (skipped = true → s₁.length < s.length) :=
    skipWhiteSpace_length hskip
  refine ite_congr rfl (fun hs => ?_) fun _ => ?_
  · have hlt := hskipped hs
    exact iha d s₁ (by omega)
  dsimp only
  rw [ihv (d - 1) s₁ (by omega)]
  refine bind_congr_of_ok fun ⟨v, s₂⟩ hv => ?_
  have hvlt : s₂.length < s₁.length := (fromStream_length (fuel + 1)).1 _ _ _ _ hv
  refine bind_congr_of_ok fun ⟨_, s₃⟩ hskip' => ?_
  have hle' : s₃.length ≤ s₂.length := (skipWhiteSpace_length hskip').1
  dsimp only
  rw [iha d s₃ (by omega)]

theorem fromStream_fuel_succ (P : Platform) (fuel : ℕ) : Suffices (variantFromStream P) 1 fuel ∧
    Suffices (objectFromStream P) 2 fuel ∧ Suffices (arrayFromStream P) 2 fuel := by
  induction fuel with
  | zero => refine ⟨?_, ?_, ?_⟩ <;> intro d s h <;> omega
  | succ fuel ih =>
      obtain ⟨ihv, iho, iha⟩ := ih
      exact ⟨variantFromStream_suffices iho iha, objectFromStream_suffices ihv iho,
        arrayFromStream_suffices ihv iha⟩

end Bound

/-- The parser never runs out of nested calls: any greater bound gives the same result. -/
theorem fromString_eq (P : Platform) (s : Str) {fuel : ℕ} (hf : 2 * s.length + 1 ≤ fuel) :
    fromString P s = (variantFromStream P fuel defaultMaxDepth s).map Prod.fst := by
  have hfuel : variantFromStream P (2 * s.length + 1) defaultMaxDepth s =
      variantFromStream P fuel defaultMaxDepth s := by
    induction hf with
    | refl => rfl
    | step hf ih => rw [ih, (fromStream_fuel_succ P _).1 _ _ hf]
  rw [fromString, hfuel]
  cases variantFromStream P fuel defaultMaxDepth s <;> rfl

end SimpleBlockchain
