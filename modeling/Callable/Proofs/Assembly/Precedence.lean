import Callable.Proofs.Assembly.Merge
import Callable.Proofs.Reference.Canonical
import Mathlib.Data.List.Nodup

/-!
Who is asked first. Merging goes through the documentation entry by entry and changes parameters in
place, but what comes out can be said at once: of a parameter, whatever the signature leaves open is
told by the first entry of its name that can tell it. `enrich` says this, and `Reads` ties a merge
that has read some entries to it. Results are documented by place, each by one entry.
-/
namespace Callable.Assembly

/-- The canonical spelling of a documented type, unless it has none or it is `Any`. -/
def resolved? (limits : Reference.Limits) (scope : Scope) (documented : Option String) :
    Option String :=
  (documented.bind fun text => (Reference.canonical limits scope text).toOption).filter (· ≠ "Any")

/-- A type, or what is told in the place of `Any`. -/
def fillType (type : String) (told : Option String) : String :=
  if type = "Any" then told.getD "Any" else type

/-- The flags that documentation may give a parameter. -/
def admittedFlag (p : InputParam) (flag : Option Bool) : Option Bool :=
  flag.filter fun flag => flag || p.default.isNone

/-- The warning tells of a documented type that has no canonical spelling. -/
def IsUnresolved (limits : Reference.Limits) (scope : Scope) (documented : Option String)
    (w : Warning) : Prop :=
  ∃ name text e, documented = some text ∧ Reference.canonical limits scope text = .error e ∧
    w = .unresolvedType name text

section Entry

variable (limits : Reference.Limits) (scope : Scope)

theorem toOption_eq_some_iff {ε α : Type} (outcome : Except ε α) (a : α) :
    outcome.toOption = some a ↔ outcome = .ok a := by
  cases outcome with
  | error e => exact iff_of_false (fun h => by cases h) (fun h => by cases h)
  | ok b =>
    constructor
    · rintro ⟨⟩
      rfl
    · rintro ⟨⟩
      rfl

theorem resolved?_eq_some_iff (documented : Option String) (type : String) :
    resolved? limits scope documented = some type ↔
      ∃ text, documented = some text ∧ Reference.canonical limits scope text = .ok type ∧
        type ≠ "Any" := by
  simp only [resolved?, Option.filter_eq_some_iff, Option.bind_eq_some_iff, toOption_eq_some_iff,
    decide_eq_true_iff]
  constructor
  · rintro ⟨⟨text, htext, hcanonical⟩, hany⟩
    exact ⟨text, htext, hcanonical, hany⟩
  · rintro ⟨text, htext, hcanonical, hany⟩
    exact ⟨⟨text, htext, hcanonical⟩, hany⟩

theorem fillType_none (type : String) : fillType type none = type := by
  unfold fillType
  split
  · rename_i hany
    exact hany.symm
  · rfl

/-- What is told first stays, unless it is `Any`. -/
theorem fillType_fillType (type : String) {first : Option String} (next : Option String)
    (hfirst : ∀ told, first = some told → told ≠ "Any") :
    fillType (fillType type first) next = fillType type (first.or next) := by
  unfold fillType
  by_cases hany : type = "Any"
  · cases first with
    | none => rw [if_pos hany, Option.getD_none, if_pos rfl, if_pos hany, Option.none_or]
    | some told =>
      rw [if_pos hany, Option.getD_some, if_neg (hfirst told rfl), if_pos hany, Option.some_or,
        Option.getD_some]
  · rw [if_neg hany, if_neg hany, if_neg hany]

theorem exists_warnings_documentedType {ε : Type} (name type : String)
    (documented : Option String) :
    ∃ warnings, (documentedType limits scope name type documented : Logged ε _).outcome =
        .ok (fillType type (resolved? limits scope documented), warnings) ∧
      ∀ w ∈ warnings, IsUnresolved limits scope documented w := by
  unfold documentedType
  cases documented with
  | none => exact ⟨[], by rw [resolved?, Option.bind_none, Option.filter_none, fillType_none]; rfl,
      fun w hw => by cases hw⟩
  | some text =>
    by_cases hany : type = "Any"
    · simp only [hany, if_true, Logged.outcome_bind, Logged.outcome_attempt,
        Reference.outcome_canonicalLogged]
      cases hcanonical : Reference.canonical limits scope text with
      | ok spelling =>
        refine ⟨[], ?_, fun w hw => by cases hw⟩
        have htold : fillType "Any" (resolved? limits scope (some text)) = spelling := by
          rw [fillType, if_pos rfl, resolved?, Option.bind_some, hcanonical, Except.toOption,
            Option.filter_some]
          by_cases hspelling : spelling = "Any"
          · rw [hspelling]
            rfl
          · rw [if_pos (decide_eq_true hspelling), Option.getD_some]
        rw [htold]
        rfl
      | error e =>
        refine ⟨[.unresolvedType name text], ?_, ?_⟩
        · have htold : fillType "Any" (resolved? limits scope (some text)) = "Any" := by
            rw [resolved?, Option.bind_some, hcanonical, Except.toOption, Option.filter_none,
              fillType_none]
          rw [htold]
          rfl
        · intro w hw
          exact ⟨name, text, e, rfl, hcanonical, List.mem_singleton.mp hw⟩
    · simp only [hany, if_false]
      exact ⟨[], by rw [fillType, if_neg hany]; rfl, fun w hw => by cases hw⟩

theorem documentedFlag_eq (p : InputParam) (flag : Option Bool) :
    documentedFlag p flag = p.optional.or (admittedFlag p flag) := by
  unfold documentedFlag admittedFlag
  cases p.optional with
  | some own => rfl
  | none =>
    cases flag with
    | none => rfl
    | some flag => rw [Option.none_or, Option.filter_some]

end Entry

/-- The first answer that entries of a name give to a question. -/
def firstSaid {α : Type} (docs : List InputDoc) (name : String) (answer : InputDoc → Option α) :
    Option α :=
  docs.findSome? fun doc => if doc.name = name then answer doc else none

section FirstSaid

variable {α : Type} {docs : List InputDoc} {doc : InputDoc} {name : String}
  {answer : InputDoc → Option α}

theorem firstSaid_append_of_eq (h : doc.name = name) :
    firstSaid (docs ++ [doc]) name answer = (firstSaid docs name answer).or (answer doc) := by
  rw [firstSaid, List.findSome?_append, List.findSome?_singleton, if_pos h]
  rfl

theorem firstSaid_append_of_ne (h : doc.name ≠ name) :
    firstSaid (docs ++ [doc]) name answer = firstSaid docs name answer := by
  rw [firstSaid, List.findSome?_append, List.findSome?_singleton, if_neg h, Option.or_none]
  rfl

theorem exists_of_firstSaid {told : α} (h : firstSaid docs name answer = some told) :
    ∃ doc ∈ docs, doc.name = name ∧ answer doc = some told := by
  obtain ⟨doc, hdoc, hanswer⟩ := List.exists_of_findSome?_eq_some h
  split at hanswer
  · rename_i hname
    exact ⟨doc, hdoc, hname, hanswer⟩
  · cases hanswer

end FirstSaid

/-- A parameter of the signature with its documentation merged in. -/
def enrich (limits : Reference.Limits) (scope : Scope) (docs : List InputDoc) (p : InputParam) :
    InputParam :=
  { p with
    type := fillType p.type (firstSaid docs p.name fun doc => resolved? limits scope doc.type)
    description := p.description.or (firstSaid docs p.name InputDoc.description)
    optional := p.optional.or (firstSaid docs p.name fun doc => admittedFlag p doc.optional) }

/-- Documentation alone makes a positional parameter of the signature optional: its first flag says
so, and the signature does not speak of it. -/
def Grants (docs : List InputDoc) (p : InputParam) : Prop :=
  grantsOptional p (firstSaid docs p.name InputDoc.optional) = true

section Enrich

variable (limits : Reference.Limits) (scope : Scope) {docs : List InputDoc} {doc : InputDoc}
  {p : InputParam}

theorem enrich_append_of_ne (h : doc.name ≠ p.name) :
    enrich limits scope (docs ++ [doc]) p = enrich limits scope docs p := by
  unfold enrich
  simp only [firstSaid_append_of_ne h]

theorem enrich_append_of_eq (h : doc.name = p.name) :
    enrich limits scope (docs ++ [doc]) p =
      { enrich limits scope docs p with
        type := fillType (enrich limits scope docs p).type (resolved? limits scope doc.type)
        description := (enrich limits scope docs p).description.or doc.description
        optional := documentedFlag (enrich limits scope docs p) doc.optional } := by
  have hfirst (told : String)
      (htold : (firstSaid docs p.name fun doc => resolved? limits scope doc.type) = some told) :
      told ≠ "Any" := by
    obtain ⟨_, -, -, hanswer⟩ := exists_of_firstSaid htold
    obtain ⟨_, -, -, hany⟩ := (resolved?_eq_some_iff limits scope _ told).mp hanswer
    exact hany
  rw [documentedFlag_eq]
  unfold enrich
  simp only [firstSaid_append_of_eq h, fillType_fillType p.type _ hfirst, Option.or_assoc]
  rfl

theorem grants_iff : Grants docs p ↔ p.positional = true ∧ p.default = none ∧ p.optional = none ∧
    firstSaid docs p.name InputDoc.optional = some true := by
  simp only [Grants, grantsOptional, Bool.and_eq_true, Option.isNone_iff_eq_none, beq_iff_eq]
  constructor
  · rintro ⟨⟨⟨hflag, hfirst⟩, hpositional⟩, hdefault⟩
    exact ⟨hpositional, hdefault, hflag, hfirst⟩
  · rintro ⟨hpositional, hdefault, hflag, hfirst⟩
    exact ⟨⟨⟨hflag, hfirst⟩, hpositional⟩, hdefault⟩

/-- Where the signature says nothing about it, the first flag decides. -/
theorem optional_enrich (hdefault : p.default = none) (hflag : p.optional = none) :
    (enrich limits scope docs p).optional = firstSaid docs p.name InputDoc.optional := by
  have hadmitted (flag : Option Bool) : admittedFlag p flag = flag := by
    cases flag with
    | none => rfl
    | some flag => rw [admittedFlag, Option.filter_some, hdefault, Option.isNone_none, Bool.or_true,
        if_pos rfl]
  change p.optional.or (firstSaid docs p.name fun doc => admittedFlag p doc.optional) = _
  rw [hflag, Option.none_or]
  simp only [hadmitted]

/-- A positional parameter is asked for if the signature asks for it and documentation does not make
it optional. -/
theorem isRequired_enrich (hpositional : p.positional = true) :
    (enrich limits scope docs p).isRequired = true ↔ p.isRequired = true ∧ ¬ Grants docs p := by
  simp only [InputParam.isRequired, Bool.not_eq_true', isOptional_eq_false_iff]
  change _ ∧ p.default = none ↔ _
  constructor
  · rintro ⟨hflag, hdefault⟩
    cases hown : p.optional with
    | some own =>
      have hsame : (enrich limits scope docs p).optional = some own := by
        change p.optional.or _ = _
        rw [hown, Option.some_or]
      refine ⟨⟨hsame ▸ hflag, hdefault⟩, fun hgrants => ?_⟩
      cases hown.symm.trans (grants_iff.mp hgrants).2.2.1
    | none =>
      refine ⟨⟨by simp, hdefault⟩, fun hgrants => hflag ?_⟩
      rw [optional_enrich limits scope hdefault hown]
      exact (grants_iff.mp hgrants).2.2.2
  · rintro ⟨⟨hflag, hdefault⟩, hgrants⟩
    refine ⟨fun htrue => ?_, hdefault⟩
    cases hown : p.optional with
    | some own =>
      change p.optional.or _ = _ at htrue
      rw [hown, Option.some_or] at htrue
      exact hflag (hown.trans htrue)
    | none =>
      rw [optional_enrich limits scope hdefault hown] at htrue
      exact hgrants (grants_iff.mpr ⟨hpositional, hdefault, hown, htrue⟩)

/-- An entry makes a parameter optional only if no entry before it did. -/
theorem not_grantsOptional_of_grants (h : Grants docs p) (flag : Option Bool) :
    grantsOptional (enrich limits scope docs p) flag = false := by
  obtain ⟨-, hdefault, hown, hfirst⟩ := grants_iff.mp h
  simp only [grantsOptional, optional_enrich limits scope hdefault hown, hfirst]
  rfl

theorem grants_append_of_eq (h : doc.name = p.name) :
    Grants (docs ++ [doc]) p ↔
      Grants docs p ∨ grantsOptional (enrich limits scope docs p) doc.optional = true := by
  simp only [grants_iff, firstSaid_append_of_eq h]
  constructor
  · rintro ⟨hpositional, hdefault, hown, hfirst⟩
    cases hbefore : firstSaid docs p.name InputDoc.optional with
    | some flag =>
      rw [hbefore, Option.some_or] at hfirst
      exact Or.inl ⟨hpositional, hdefault, hown, hfirst⟩
    | none =>
      rw [hbefore, Option.none_or] at hfirst
      refine Or.inr ?_
      simp only [grantsOptional, optional_enrich limits scope hdefault hown, hbefore, hfirst]
      change (true && p.positional && p.default.isNone) = true
      rw [hpositional, hdefault]
      rfl
  · rintro (⟨hpositional, hdefault, hown, hfirst⟩ | hgrants)
    · exact ⟨hpositional, hdefault, hown, by rw [hfirst, Option.some_or]⟩
    · simp only [grantsOptional, Bool.and_eq_true, Option.isNone_iff_eq_none, beq_iff_eq] at hgrants
      obtain ⟨⟨⟨hflag, hdoc⟩, hpositional⟩, hdefault⟩ := hgrants
      have hown : p.optional = none := (Option.or_eq_none_iff.mp hflag).1
      rw [optional_enrich (p := p) limits scope hdefault hown] at hflag
      exact ⟨hpositional, hdefault, hown, by rw [hflag, hdoc, Option.none_or]⟩

theorem grants_append_of_ne (h : doc.name ≠ p.name) :
    Grants (docs ++ [doc]) p ↔ Grants docs p := by
  simp only [Grants, firstSaid_append_of_ne h]

end Enrich

section ByName

variable {limits : Reference.Limits} {scope : Scope} {inputs : List InputParam}
  {docs : List InputDoc}

/-- Parameters with different names are told apart by them. -/
theorem eq_place_of_name (hnames : (inputs.map InputParam.name).Nodup)
    {i j : Nat} {p q : InputParam} (hp : inputs[i]? = some p) (hq : inputs[j]? = some q)
    (h : p.name = q.name) : i = j := by
  obtain ⟨hi, rfl⟩ := List.getElem?_eq_some_iff.mp hp
  obtain ⟨hj, rfl⟩ := List.getElem?_eq_some_iff.mp hq
  have hi' : i < (inputs.map InputParam.name).length := by rwa [List.length_map]
  have hj' : j < (inputs.map InputParam.name).length := by rwa [List.length_map]
  have hsame : (inputs.map InputParam.name)[i] = (inputs.map InputParam.name)[j] := by
    rw [List.getElem_map, List.getElem_map]
    exact h
  exact hnames.getElem_inj_iff.mp hsame

/-- Only the parameter of its name is changed by an entry. -/
theorem set_enrich (hnames : (inputs.map InputParam.name).Nodup) {doc : InputDoc} {i : Nat}
    {p : InputParam} (hp : inputs[i]? = some p) (hname : doc.name = p.name) :
    (inputs.map (enrich limits scope docs)).set i (enrich limits scope (docs ++ [doc]) p) =
      inputs.map (enrich limits scope (docs ++ [doc])) := by
  obtain ⟨hi, -⟩ := List.getElem?_eq_some_iff.mp hp
  refine List.ext_getElem? fun j => ?_
  rw [List.getElem?_set, List.length_map, List.getElem?_map, List.getElem?_map]
  by_cases hij : i = j
  · subst hij
    rw [if_pos rfl, if_pos hi, hp, Option.map_some]
  · rw [if_neg hij]
    cases hq : inputs[j]? with
    | none => rfl
    | some q =>
      have hother : doc.name ≠ q.name := fun heq =>
        hij (eq_place_of_name hnames hp hq (hname.symm.trans heq))
      rw [Option.map_some, Option.map_some, enrich_append_of_ne limits scope hother]

/-- With one more entry, documentation alone makes the parameter of its name optional too if the entry
does, and no other. -/
theorem exists_grants_append_iff (limits : Reference.Limits) (scope : Scope)
    (hnames : (inputs.map InputParam.name).Nodup) {doc : InputDoc}
    {i : Nat} {p : InputParam} (hp : inputs[i]? = some p) (hname : doc.name = p.name) (j : Nat) :
    (∃ q, inputs[j]? = some q ∧ Grants (docs ++ [doc]) q) ↔
      (∃ q, inputs[j]? = some q ∧ Grants docs q) ∨
        grantsOptional (enrich limits scope docs p) doc.optional = true ∧ j = i := by
  by_cases hij : i = j
  · subst hij
    simp only [hp, Option.some.injEq, exists_eq_left', and_true]
    exact grants_append_of_eq limits scope hname
  · rw [or_iff_left fun hnew => hij hnew.2.symm]
    refine exists_congr fun q => and_congr_right fun hq => grants_append_of_ne fun heq => ?_
    exact hij (eq_place_of_name hnames hp hq (hname.symm.trans heq))

end ByName

/-- The warning tells of an entry that is on no parameter, or on a type without a canonical
spelling. -/
def IsInputDrift (limits : Reference.Limits) (scope : Scope) (docs : List InputDoc) (w : Warning) :
    Prop :=
  ∃ doc ∈ docs, w = .unknownInput doc.name ∨ IsUnresolved limits scope doc.type w

theorem IsInputDrift.append {limits : Reference.Limits} {scope : Scope} {docs : List InputDoc}
    {w : Warning} (h : IsInputDrift limits scope docs w) (more : List InputDoc) :
    IsInputDrift limits scope (docs ++ more) w := by
  obtain ⟨doc, hdoc, hdrift⟩ := h
  exact ⟨doc, List.mem_append_left _ hdoc, hdrift⟩

/-- A merge that starts with `inputs` and has read the entries `docs`. -/
structure Reads (limits : Reference.Limits) (scope : Scope) (inputs : List InputParam)
    (docs : List InputDoc) (m : Merged) : Prop where
  enriched : m.inputs = inputs.map (enrich limits scope docs)
  granted : ∀ i, i ∈ m.granted ↔ ∃ p, inputs[i]? = some p ∧ Grants docs p
  nodup : m.granted.Nodup
  warnings : ∀ w ∈ m.warnings, IsInputDrift limits scope docs w

namespace Reads

variable {limits : Reference.Limits} {scope : Scope} {inputs : List InputParam}
  {docs : List InputDoc} {m : Merged}

theorem start (limits : Reference.Limits) (scope : Scope) (inputs : List InputParam) :
    Reads limits scope inputs [] ⟨inputs, [], []⟩ where
  enriched := by
    have hnone (p : InputParam) : enrich limits scope [] p = p := by
      change { p with
        type := fillType p.type none
        description := p.description.or none
        optional := p.optional.or none } = p
      rw [fillType_none, Option.or_none, Option.or_none]
    rw [List.map_congr_left fun p _ => hnone p, List.map_id']
  granted i := by
    refine iff_of_false List.not_mem_nil ?_
    rintro ⟨p, -, hgrants⟩
    cases (grants_iff.mp hgrants).2.2.2
  nodup := List.nodup_nil
  warnings w hw := by cases hw

/-- An entry on no parameter. -/
theorem skip (h : Reads limits scope inputs docs m) {doc : InputDoc}
    (hnone : ∀ p ∈ inputs, doc.name ≠ p.name) :
    Reads limits scope inputs (docs ++ [doc])
      { m with warnings := m.warnings ++ [.unknownInput doc.name] } where
  enriched := by
    rw [h.enriched]
    exact List.map_congr_left fun p hp => (enrich_append_of_ne limits scope (hnone p hp)).symm
  granted i := by
    rw [h.granted]
    refine exists_congr fun p => and_congr_right fun hp => ?_
    exact (grants_append_of_ne (hnone p (List.mem_of_getElem? hp))).symm
  nodup := h.nodup
  warnings w hw := by
    rcases List.mem_append.mp hw with hw | hw
    · exact (h.warnings w hw).append [doc]
    · exact ⟨doc, List.mem_append_right _ List.mem_cons_self, Or.inl (List.mem_singleton.mp hw)⟩

/-- An entry on the parameter at a place. -/
theorem read (h : Reads limits scope inputs docs m)
    (hnames : (inputs.map InputParam.name).Nodup) {doc : InputDoc} {i : Nat} {p : InputParam}
    (hp : inputs[i]? = some p) (hname : doc.name = p.name) {warnings : List Warning}
    (hwarnings : ∀ w ∈ warnings, IsUnresolved limits scope doc.type w) :
    Reads limits scope inputs (docs ++ [doc]) {
      inputs := m.inputs.set i (enrich limits scope (docs ++ [doc]) p)
      granted := if grantsOptional (enrich limits scope docs p) doc.optional then m.granted ++ [i]
        else m.granted
      warnings := m.warnings ++ warnings } where
  enriched := by
    rw [h.enriched]
    exact set_enrich hnames hp hname
  granted j := by
    rw [exists_grants_append_iff limits scope hnames hp hname, ← h.granted]
    split
    · rename_i hgrants
      rw [List.mem_append, List.mem_singleton, and_iff_right hgrants]
    · rename_i hgrants
      rw [or_iff_left fun hnew => hgrants hnew.1]
  nodup := by
    change (if _ then _ else _ : List Nat).Nodup
    split
    · rename_i hgrants
      -- a place that was granted before is not open to a second flag
      rw [← List.concat_eq_append]
      refine h.nodup.concat fun hold => ?_
      obtain ⟨q, hq, hold⟩ := (h.granted i).mp hold
      cases hp.symm.trans hq
      rw [not_grantsOptional_of_grants limits scope hold] at hgrants
      cases hgrants
    · exact h.nodup
  warnings w hw := by
    rcases List.mem_append.mp hw with hw | hw
    · exact (h.warnings w hw).append [doc]
    · exact ⟨doc, List.mem_append_right _ List.mem_cons_self, Or.inr (hwarnings w hw)⟩

theorem add {ε : Type} (h : Reads limits scope inputs docs m)
    (hnames : (inputs.map InputParam.name).Nodup) (doc : InputDoc) :
    ∃ m', (m.add limits scope doc : Logged ε Merged).outcome = .ok m' ∧
      Reads limits scope inputs (docs ++ [doc]) m' := by
  unfold Merged.add
  have hfound : m.inputs.findIdx? (·.name = doc.name) = inputs.findIdx? (·.name = doc.name) := by
    rw [h.enriched, List.findIdx?_map]
    rfl
  rw [hfound]
  cases hplace : inputs.findIdx? (·.name = doc.name) with
  | none =>
    refine ⟨_, rfl, h.skip fun p hp heq => ?_⟩
    have hno := List.findIdx?_eq_none_iff.mp hplace p hp
    exact of_decide_eq_false hno heq.symm
  | some i =>
    obtain ⟨hi, hname, -⟩ := List.findIdx?_eq_some_iff_getElem.mp hplace
    have hp : inputs[i]? = some inputs[i] := List.getElem?_eq_getElem hi
    have hname : doc.name = inputs[i].name := (of_decide_eq_true hname).symm
    have hold : m.inputs[i]? = some (enrich limits scope docs inputs[i]) := by
      rw [h.enriched, List.getElem?_map, hp, Option.map_some]
    obtain ⟨warnings, htype, hwarnings⟩ :=
      exists_warnings_documentedType (ε := ε) limits scope inputs[i].name
        (enrich limits scope docs inputs[i]).type doc.type
    have hread := h.read hnames hp hname hwarnings
    rw [enrich_append_of_eq limits scope hname] at hread
    refine ⟨_, ?_, hread⟩
    simp only [hold, Logged.outcome_bind]
    rw [show (enrich limits scope docs inputs[i]).name = inputs[i].name from rfl, htype]
    rfl

/-- All entries, read in order. -/
theorem addAll {ε : Type} (h : Reads limits scope inputs docs m)
    (hnames : (inputs.map InputParam.name).Nodup) (more : List InputDoc) :
    ∃ m', (m.addAll limits scope more : Logged ε Merged).outcome = .ok m' ∧
      Reads limits scope inputs (docs ++ more) m' := by
  induction more generalizing docs m with
  | nil => exact ⟨m, rfl, by rwa [List.append_nil]⟩
  | cons doc rest ih =>
    obtain ⟨m', hm', h'⟩ := h.add (ε := ε) hnames doc
    obtain ⟨m'', hm'', h''⟩ := ih h'
    rw [List.append_assoc] at h''
    refine ⟨m'', ?_, h''⟩
    rw [Merged.addAll, Logged.outcome_bind, hm']
    exact hm''

end Reads

/-- A result of the signature with the entry on its place merged in, if there is one. -/
def enrichOutput (limits : Reference.Limits) (scope : Scope) (doc : Option OutputDoc)
    (p : OutputParam) : OutputParam :=
  { p with
    type := fillType p.type (resolved? limits scope (doc.bind OutputDoc.type))
    description := p.description.or (doc.bind OutputDoc.description) }

/-- The warning tells of an entry that is on no result, under a name that is not that of its place, or
on a type without a canonical spelling. -/
def IsOutputDrift (limits : Reference.Limits) (scope : Scope) (index count : Nat)
    (docs : List OutputDoc) (w : Warning) : Prop :=
  ∃ i doc, docs[i]? = some doc ∧
    (w = .extraOutput (index + i) ∨
      (∃ name declared, doc.name = some name ∧ name ≠ Docs.defaultOutputName (index + i) count ∧
        w = .unmatchedOutputName (index + i) name declared) ∨
      IsUnresolved limits scope doc.type w)

section Outputs

variable {limits : Reference.Limits} {scope : Scope}

theorem enrichOutput_none (p : OutputParam) : enrichOutput limits scope none p = p := by
  change { p with
    type := fillType p.type none
    description := p.description.or none } = p
  rw [fillType_none, Option.or_none]

theorem IsOutputDrift.cons {index count : Nat} {docs : List OutputDoc} {w : Warning}
    (h : IsOutputDrift limits scope (index + 1) count docs w) (doc : OutputDoc) :
    IsOutputDrift limits scope index count (doc :: docs) w := by
  obtain ⟨i, found, hfound, hdrift⟩ := h
  rw [Nat.add_right_comm, Nat.add_assoc] at hdrift
  exact ⟨i + 1, found, hfound, hdrift⟩

theorem mem_nameWarning {index count : Nat} {declared : String} {documented : Option String}
    {w : Warning} (h : w ∈ nameWarning index count declared documented) :
    ∃ name, documented = some name ∧ name ≠ Docs.defaultOutputName index count ∧
      w = .unmatchedOutputName index name declared := by
  unfold nameWarning at h
  split at h
  · cases h
  · rename_i name
    split at h
    · rename_i hother
      exact ⟨name, rfl, hother.2, List.mem_singleton.mp h⟩
    · cases h

theorem exists_enriched_mergeOutputs {ε : Type} (limits : Reference.Limits) (scope : Scope)
    (index count : Nat) (outputs : List OutputParam) (docs : List OutputDoc) :
    ∃ merged warnings, (mergeOutputs limits scope index count outputs docs : Logged ε _).outcome =
        .ok (merged, warnings) ∧
      (∀ i : Nat, merged[i]? = (outputs[i]?).map (enrichOutput limits scope docs[i]?)) ∧
      ∀ w ∈ warnings, IsOutputDrift limits scope index count docs w := by
  induction docs generalizing index outputs with
  | nil =>
    refine ⟨outputs, [], by rw [mergeOutputs]; rfl, fun i => ?_, fun w hw => by cases hw⟩
    have hsame : enrichOutput limits scope none = id := funext enrichOutput_none
    rw [List.getElem?_nil, hsame, Option.map_id, id]
  | cons doc docs ih =>
    cases outputs with
    | nil =>
      obtain ⟨merged, warnings, hrest, -, hdrift⟩ := ih (index + 1) []
      refine ⟨[], .extraOutput index :: warnings, ?_, fun i => rfl, ?_⟩
      · rw [mergeOutputs, Logged.outcome_bind, hrest]
        rfl
      · exact List.forall_mem_cons.mpr
          ⟨⟨0, doc, rfl, Or.inl rfl⟩, fun w hw => (hdrift w hw).cons doc⟩
    | cons p outputs =>
      obtain ⟨unresolved, htype, hunresolved⟩ :=
        exists_warnings_documentedType (ε := ε) limits scope p.name p.type doc.type
      obtain ⟨merged, warnings, hrest, hplaces, hdrift⟩ := ih (index + 1) outputs
      refine ⟨enrichOutput limits scope (some doc) p :: merged,
        nameWarning index count p.name doc.name ++ unresolved ++ warnings, ?_, ?_, ?_⟩
      · rw [mergeOutputs, Logged.outcome_bind, htype]
        change (_ >>= _ : Logged ε _).outcome = _
        rw [Logged.outcome_bind, hrest]
        rfl
      · intro i
        cases i with
        | zero => rfl
        | succ i => exact hplaces i
      · intro w hw
        rw [List.mem_append, List.mem_append] at hw
        rcases hw with (hname | htypes) | hlater
        · obtain ⟨name, hdocumented, hother, rfl⟩ := mem_nameWarning hname
          exact ⟨0, doc, rfl, Or.inr (Or.inl ⟨name, p.name, hdocumented, hother, rfl⟩)⟩
        · exact ⟨0, doc, rfl, Or.inr (Or.inr (hunresolved w htypes))⟩
        · exact (hdrift w hlater).cons doc

end Outputs

end Callable.Assembly
