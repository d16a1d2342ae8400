import KeyOrder.Proofs.Isolation
/-!
# Candidates of a configuration

The search for a configuration goes through its candidates one by one.  A candidate
that cannot be read or is malformed is passed over, one that is decoded decides, be it
valid or not.  A candidate that goes beyond a limit of the decoder is neither: it breaks
the search off, and the session with it.
-/

namespace KeyOrder

/-! ## Limits of the decoder -/

namespace Json

/-- A fault of a text that goes beyond what the decoder handles, well formed or not: an integer of
too many digits, or too many containers inside one another. -/
def DecodeError.IsLimit : DecodeError → Prop
  | .tooManyDigits count => maxIntegerDigits < count
  | .tooDeep _ => True
  | _ => False

/-- What is malformed goes beyond no limit. -/
theorem DecodeError.not_isLimit_malformed {complaint : Complaint} {position : Position} :
    ¬ (DecodeError.malformed complaint position).IsLimit :=
  id

/-- In the extended dialect a numeral is refused only for its digits. -/
theorem Numeral.isLimit_of_value {n : Numeral} {error : DecodeError}
    (h : n.value .extended = .error error) : error.IsLimit := by
  unfold value at h
  split at h
  · split at h
    · cases h
    · next hlength =>
      obtain rfl := Except.error.inj h
      exact Nat.lt_of_not_le hlength
  · cases h

/-- In the extended dialect a token that may come is refused only for a limit. -/
theorem DecodeError.IsRefusal.isLimit {error : DecodeError} (h : error.IsRefusal .extended) :
    error.IsLimit := by
  rcases h with ⟨n, hvalue⟩ | ⟨c, hvalue⟩ | ⟨container, rfl⟩
  · exact Numeral.isLimit_of_value hvalue
  · cases hvalue
  · trivial

/-- In the extended dialect a text that is not malformed is refused only for a limit. -/
theorem malformed_or_isLimit_of_decode [Platform] {text : Text} {error : DecodeError}
    (h : decode .extended text = .error error) :
    (∃ complaint position, error = .malformed complaint position) ∨ error.IsLimit := by
  rcases malformed_or_isRefusal_of_decode h with ⟨complaint, offset, hmalformed⟩ | hrefusal
  · exact Or.inl ⟨complaint, Position.of text offset, hmalformed⟩
  · exact Or.inr hrefusal.isLimit

/-- A row of too many digits is refused. -/
theorem decode_of_isLeading [Platform] {dialect : Dialect} {digits : Text}
    (hdigits : IsLeading digits) (hlength : maxIntegerDigits < digits.length) :
    decode dialect digits = .error (.tooManyDigits digits.length) := by
  have htext : Numeral.text ⟨false, digits, none, none⟩ ++ [] = digits := by
    simp [Numeral.text]
  have hspelled : Numeral.IsSpelled ⟨false, digits, none, none⟩ :=
    ⟨Or.inr hdigits, (fun _ h => by cases h), (fun _ h => by cases h)⟩
  have hends : EndsNumeral [] := fun _ h => by cases h
  have hscan := scanToken_text hspelled hends
  rw [htext] at hscan
  have hmark : '\uFEFF' ∉ digits.head? := fun h => by
    have hdigit := hdigits.1.2 _ (List.mem_of_head? h)
    simp [Char.isDigit] at hdigit
  rw [decode_eq_readFrom hmark, readFrom, Tokens.ofText, skipBlanks_of_scanToken hscan]
  split
  · next h => rw [hscan] at h; cases h
  · next h =>
    rw [hscan] at h
    obtain ⟨rfl, rfl⟩ := Prod.mk.inj (Except.ok.inj h)
    have hvalue : Numeral.value dialect ⟨false, digits, none, none⟩
        = .error (.tooManyDigits digits.length) :=
      (if_pos rfl).trans (if_neg (Nat.not_le_of_lt hlength))
    simp only [readTokens, Place.next, startValue, hvalue]
    rfl

end Json

/-! ## One candidate -/

section Candidate

variable {σ : Type} [FileStore σ] {store : σ} {name : CodeText}

/-- A candidate is passed over: it cannot be read, or what it holds is malformed. -/
def IsPassedOver [Platform] (store : σ) (name : CodeText) : Prop :=
  (∃ fault, FileStore.read store name = .error fault ∧ fault.concernsFile = true) ∨
    ∃ text complaint position, FileStore.read store name = .ok text ∧
      decodeConfig text = .error (.malformed complaint position)

/-- A candidate breaks the search off with a fault: no file can have its name, or what it holds
goes beyond a limit of the decoder. -/
inductive BreaksOff [Platform] (store : σ) (name : CodeText) : Fault → Prop
  | name {fault : FileFault} (hread : FileStore.read store name = .error fault)
      (hfile : fault.concernsFile = false) : BreaksOff store name (.file fault)
  | limit {text : Text} {error : Json.DecodeError} (hread : FileStore.read store name = .ok text)
      (hdecode : decodeConfig text = .error error) (hlimit : error.IsLimit) :
      BreaksOff store name (.decode error)

/-- No candidate breaks the search off because of its shape. -/
theorem BreaksOff.ne_config [Platform] {fault : Fault} (h : BreaksOff store name fault)
    (error : ConfigError) : fault ≠ .config error := by
  cases h <;> exact Fault.noConfusion

/-- What is read of a candidate that is passed over is nothing. -/
theorem IsPassedOver.readCandidate [Platform] (h : IsPassedOver store name) :
    readCandidate store name = .ok none := by
  rcases h with ⟨fault, hread, hfile⟩ | ⟨text, complaint, position, hread, hdecode⟩
  · simp only [KeyOrder.readCandidate, hread, hfile, if_true]
  · simp only [KeyOrder.readCandidate, hread, hdecode]

/-- Reading a candidate that breaks the search off fails with its fault. -/
theorem BreaksOff.readCandidate [Platform] {fault : Fault} (h : BreaksOff store name fault) :
    readCandidate store name = .error fault := by
  cases h with
  | name hread hfile =>
      simp only [KeyOrder.readCandidate, hread, hfile, Bool.false_eq_true, if_false]
  | limit hread hdecode hlimit =>
      rename_i text error
      cases error with
      | malformed complaint position => exact absurd hlimit Json.DecodeError.not_isLimit_malformed
      | _ => simp only [KeyOrder.readCandidate, hread, hdecode]

/-- A candidate is passed over, or it is decoded, or it breaks the search off. -/
theorem candidate_cases [Platform] (store : σ) (name : CodeText) :
    IsPassedOver store name ∨ (∃ v, readCandidate store name = .ok (some v)) ∨
      ∃ fault, BreaksOff store name fault := by
  cases hread : FileStore.read store name with
  | error fault =>
      cases hfile : fault.concernsFile with
      | true => exact Or.inl (Or.inl ⟨fault, hread, hfile⟩)
      | false => exact Or.inr (Or.inr ⟨_, .name hread hfile⟩)
  | ok text =>
      cases hdecode : decodeConfig text with
      | ok v => exact Or.inr (Or.inl ⟨v, by simp only [readCandidate, hread, hdecode]⟩)
      | error error =>
          rcases Json.malformed_or_isLimit_of_decode hdecode with
            ⟨complaint, position, rfl⟩ | hlimit
          · exact Or.inl (Or.inr ⟨text, complaint, position, hread, hdecode⟩)
          · exact Or.inr (Or.inr ⟨_, .limit hread hdecode hlimit⟩)

end Candidate

/-! ## All candidates -/

section Search

variable {σ : Type} [FileStore σ] {store : σ} {name : CodeText} {names : List CodeText}

/-- The search goes on behind a candidate that is passed over. -/
theorem findConfig_cons_of_isPassedOver [Platform] (h : IsPassedOver store name) :
    findConfig store (name :: names) = findConfig store names := by
  simp only [findConfig, h.readCandidate]

/-- The search ends at a candidate that breaks it off. -/
theorem findConfig_cons_of_breaksOff [Platform] {fault : Fault} (h : BreaksOff store name fault) :
    findConfig store (name :: names) = .error fault := by
  simp only [findConfig, h.readCandidate]

/-- The search ends at a candidate that is decoded, with a configuration or its issues. -/
theorem findConfig_cons_of_decoded [Platform] (names : List CodeText) {v : Value}
    (h : readCandidate store name = .ok (some v)) :
    (∃ loaded, findConfig store (name :: names) = .ok loaded) ∨
      ∃ error, findConfig store (name :: names) = .error (.config error) := by
  simp only [findConfig, h]
  cases Config.ofValue name v with
  | ok config => exact Or.inl ⟨_, rfl⟩
  | error error => exact Or.inr ⟨error, rfl⟩

/-- The first of some candidates that is not passed over breaks the search off with a fault. -/
def IsBrokenOff [Platform] (store : σ) (names : List CodeText) (fault : Fault) : Prop :=
  ∃ before name after, names = before ++ name :: after ∧
    (∀ earlier ∈ before, IsPassedOver store earlier) ∧ BreaksOff store name fault

/-- Without candidates nothing breaks the search off. -/
theorem not_isBrokenOff_nil [Platform] {fault : Fault} : ¬ IsBrokenOff store [] fault := by
  rintro ⟨before, name, after, heq, -⟩
  cases before <;> cases heq

/-- The search is broken off at the first candidate, or behind it if it is passed over. -/
theorem isBrokenOff_cons_iff [Platform] {fault : Fault} :
    IsBrokenOff store (name :: names) fault ↔
      BreaksOff store name fault ∨ IsPassedOver store name ∧ IsBrokenOff store names fault := by
  constructor
  · rintro ⟨before, last, after, heq, hbefore, hlast⟩
    cases before with
    | nil =>
        obtain ⟨rfl, rfl⟩ := List.cons.inj heq
        exact Or.inl hlast
    | cons first before =>
        obtain ⟨rfl, rfl⟩ := List.cons.inj heq
        obtain ⟨hfirst, hbefore⟩ := List.forall_mem_cons.mp hbefore
        exact Or.inr ⟨hfirst, before, last, after, rfl, hbefore, hlast⟩
  · rintro (h | ⟨hfirst, before, last, after, rfl, hbefore, hlast⟩)
    · exact ⟨[], name, names, rfl, List.forall_mem_nil _, h⟩
    · exact ⟨name :: before, last, after, rfl, List.forall_mem_cons.mpr ⟨hfirst, hbefore⟩, hlast⟩

/-- The search is broken off with a fault exactly if it fails with the fault, and the fault is not
that a configuration is not valid. -/
theorem findConfig_eq_error_iff [Platform] {fault : Fault} :
    (findConfig store names = .error fault ∧ ∀ error, fault ≠ .config error) ↔
      IsBrokenOff store names fault := by
  induction names with
  | nil => exact iff_of_false (fun h => by cases h.1) not_isBrokenOff_nil
  | cons name names ih =>
      rw [isBrokenOff_cons_iff]
      rcases candidate_cases store name with hover | ⟨v, hv⟩ | ⟨fault', hfault⟩
      · -- The first candidate leaves the search to the others.
        have hname : ¬ BreaksOff store name fault := fun h => by
          have hread := hover.readCandidate.symm.trans h.readCandidate
          cases hread
        rw [findConfig_cons_of_isPassedOver hover, ih, or_iff_right hname, and_iff_right hover]
      · refine iff_of_false ?_ ?_
        · rintro ⟨hfind, hconfig⟩
          rcases findConfig_cons_of_decoded names hv with ⟨loaded, hok⟩ | ⟨error, herror⟩
          · rw [hok] at hfind
            cases hfind
          · rw [herror] at hfind
            exact hconfig error (Except.error.inj hfind).symm
        · rintro (hbreaks | ⟨hover, -⟩)
          · rw [hbreaks.readCandidate] at hv
            cases hv
          · rw [hover.readCandidate] at hv
            cases hv
      · rw [findConfig_cons_of_breaksOff hfault]
        constructor
        · rintro ⟨heq, -⟩
          exact Or.inl (Except.error.inj heq ▸ hfault)
        · rintro (hbreaks | ⟨hover, -⟩)
          · have heq := hbreaks.readCandidate.symm.trans hfault.readCandidate
            obtain rfl := Except.error.inj heq
            exact ⟨rfl, hbreaks.ne_config⟩
          · have heq := hover.readCandidate.symm.trans hfault.readCandidate
            cases heq

/-- A session whose search is broken off ends with the same fault, before anything is done. -/
theorem run_of_isBrokenOff [Platform] {fault : Fault} (h : IsBrokenOff store configNames fault)
    (patterns : List CodeText) (options : RunOptions) (reporting : Reporting) :
    run store patterns options reporting = { lines := [], store, outcome := .error fault } := by
  obtain ⟨hfind, hconfig⟩ := findConfig_eq_error_iff.mpr h
  unfold run
  rw [hfind]
  cases fault with
  | config error => exact absurd rfl (hconfig error)
  | _ => rfl

/-- The search comes to an end if nothing breaks it off: with a configuration or with none, or with
the issues of a configuration that is not valid. -/
theorem findConfig_cases [Platform] (h : ∀ fault, ¬ IsBrokenOff store names fault) :
    (∃ loaded, findConfig store names = .ok loaded) ∨
      ∃ error, findConfig store names = .error (.config error) := by
  cases hfind : findConfig store names with
  | ok loaded => exact Or.inl ⟨loaded, rfl⟩
  | error fault =>
      by_cases hconfig : ∃ error, fault = .config error
      · obtain ⟨error, rfl⟩ := hconfig
        exact Or.inr ⟨error, rfl⟩
      · exact absurd (findConfig_eq_error_iff.mp ⟨hfind, not_exists.mp hconfig⟩) (h fault)

/-- The search comes to an end, with a configuration or with none or with the issues of one that is
not valid, exactly if the first candidate that is not passed over does not break it off.  If it
does, the session ends with the same fault before anything is done; else it ends with the issues and
an exit code, or goes on to its targets. -/
theorem findConfig_ends_iff [Platform] (store : σ) :
    (∀ names, (∃ loaded, findConfig store names = .ok loaded) ∨
        (∃ error, findConfig store names = .error (.config error)) ↔
      ∀ fault, ¬ IsBrokenOff store names fault) ∧
    ∀ patterns options reporting,
      (∀ fault, IsBrokenOff store configNames fault →
        run store patterns options reporting = { lines := [], store, outcome := .error fault }) ∧
      ((∀ fault, ¬ IsBrokenOff store configNames fault) →
        (∃ error : ConfigError, run store patterns options reporting
          = { lines := error.lines, store, outcome := .ok 1 }) ∨
        ∃ loaded, run store patterns options reporting
          = { runWith store (usedConfig loaded) patterns options reporting with
              lines := openingLines reporting loaded ++
                (runWith store (usedConfig loaded) patterns options reporting).lines }) := by
  refine ⟨fun names => ⟨fun hends fault hbroken => ?_, findConfig_cases⟩,
    fun patterns options reporting => ⟨fun fault hbroken => ?_, fun hends => ?_⟩⟩
  · obtain ⟨hfind, hconfig⟩ := findConfig_eq_error_iff.mpr hbroken
    rcases hends with ⟨loaded, hok⟩ | ⟨error, herror⟩
    · rw [hok] at hfind
      cases hfind
    · rw [herror] at hfind
      exact hconfig error (Except.error.inj hfind).symm
  · exact run_of_isBrokenOff hbroken patterns options reporting
  · rcases findConfig_cases hends with ⟨loaded, hok⟩ | ⟨error, herror⟩
    · exact Or.inr ⟨loaded, run_of_findConfig hok⟩
    · refine Or.inl ⟨error, ?_⟩
      unfold run
      rw [herror]

end Search

/-- A configuration that is an integer of one digit too many is not passed over: it ends the search
and the session with the fault of the decoder, although the next candidate is valid. -/
theorem run_of_tooManyDigits :
    ∃ store : MemoryStore, store = .ofFiles
        [(codeText ".sortjsonrc.json", Utf8.encode (List.replicate 4301 '1')),
          (codeText ".sortjsonrc", Utf8.encode ['\x7b', '\x7d'])] ∧
      findConfig store configNames = .error (.decode (.tooManyDigits 4301)) ∧
      run store [] ⟨false, true, false, false, 2, none, [], true⟩ ⟨false, false, .kept⟩
        = { lines := [], store, outcome := .error (.decode (.tooManyDigits 4301)) } := by
  have hleading : ∀ more, IsLeading (List.replicate (more + 1) '1') := fun more =>
    ⟨⟨List.cons_ne_nil _ _, fun c hc => by rw [List.eq_of_mem_replicate hc]; rfl⟩,
      by simp [List.replicate_succ]⟩
  have hdecode : decodeConfig (List.replicate 4301 '1') = .error (.tooManyDigits 4301) := by
    have h : Json.decode .extended _ = _ := Json.decode_of_isLeading (hleading 4300) (by
      rw [List.length_replicate]
      decide)
    rwa [List.length_replicate] at h
  refine ⟨_, rfl, ?_⟩
  generalize List.replicate 4301 '1' = digits at *
  have hbroken : IsBrokenOff (MemoryStore.ofFiles
      [(codeText ".sortjsonrc.json", Utf8.encode digits),
        (codeText ".sortjsonrc", Utf8.encode ['\x7b', '\x7d'])]) configNames
      (.decode (.tooManyDigits 4301)) :=
    ⟨[], _, _, rfl, List.forall_mem_nil _, .limit (MemoryStore.read_of_bytes? rfl) hdecode
      (by decide : maxIntegerDigits < 4301)⟩
  exact ⟨(findConfig_eq_error_iff.mpr hbroken).1, run_of_isBrokenOff hbroken _ _ _⟩

end KeyOrder
