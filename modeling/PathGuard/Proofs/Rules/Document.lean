import PathGuard.Proofs.Store.Ledger

/-!
# Ledgers of documents

A document gives a ledger if no two of its entries are for the same user and repository, and the ledger
then answers with the entries of the document, in whatever order these are listed. Otherwise it is
refused for the earliest entry that repeats an earlier one.

## Main definitions

- `Ledger.Entry.key`: the user and the repository that an entry is for
- `Ledger.FirstRepeated`: the earliest entry that repeats an earlier one
- `Ledger.AnswersAs`: ledgers that answer alike

## Main results

- `Ledger.ofDocument_eq_error_iff`: when a document is refused, and for which entry
- `Ledger.ofDocument_exact`: what becomes of a document
-/

namespace PathGuard.Ledger

/-- The user and the repository that an entry is for. -/
def Entry.key (e : Entry) : UserId × RepoName :=
  (e.user, e.repo)

/-- The fault of a document with an entry that repeats an earlier one. -/
def Entry.repetition (e : Entry) : LoadFault :=
  .invalid ("duplicate rules for user " ++ toString e.user ++ " in repo '" ++ e.repo ++ "'")

/-- The earliest entry of a list that is for the same user and repository as one before it. -/
def FirstRepeated (es : List Entry) (e : Entry) : Prop :=
  ∃ before after, es = before ++ e :: after ∧ e.key ∈ before.map Entry.key ∧
    (before.map Entry.key).Nodup

/-- Ledgers that answer alike: they have the same rules of each user for each repository, and the same
    repositories with path rules. -/
def AnswersAs (l l' : Ledger) : Prop :=
  (∀ user repo, (l.rulesOf user).lookup repo = (l'.rulesOf user).lookup repo) ∧
    ∀ repo, l.supports repo = l'.supports repo

variable {l l' : Ledger} {e : Entry} {es : List Entry} {d : RulesDocument} {fault : LoadFault}

theorem mem_keys_iff {user : UserId} {repo : RepoName} :
    (user, repo) ∈ es.map Entry.key ↔ ∃ rules, ⟨user, repo, rules⟩ ∈ es := by
  rw [List.mem_map]
  constructor
  · rintro ⟨⟨_, _, rules⟩, hmem, hkey⟩
    obtain ⟨rfl, rfl⟩ := Prod.mk.inj hkey
    exact ⟨rules, hmem⟩
  · rintro ⟨rules, hmem⟩
    exact ⟨_, hmem, rfl⟩

theorem addEntry_eq_error_iff :
    l.addEntry e = .error fault ↔
      (∃ rules, l.rules? e.user e.repo = some rules) ∧ fault = e.repetition := by
  unfold addEntry
  cases l.rules? e.user e.repo <;> simp [Entry.repetition, eq_comm]

/-- Adding entries one by one fails at the first that cannot be added to those before it. -/
theorem foldlM_addEntry_eq_error_iff :
    es.foldlM addEntry l = .error fault ↔
      ∃ before e after next, es = before ++ e :: after ∧ before.foldlM addEntry l = .ok next ∧
        next.addEntry e = .error fault := by
  induction es generalizing l with
  | nil =>
    refine ⟨fun h => (by cases h), ?_⟩
    rintro ⟨before, e, after, next, hcut, -⟩
    simp at hcut
  | cons first es ih =>
    rw [List.foldlM_cons]
    cases hadd : l.addEntry first with
    | error fault' =>
      constructor
      · intro h
        obtain rfl := Except.error.inj h
        exact ⟨[], first, es, l, rfl, rfl, hadd⟩
      · rintro ⟨_ | ⟨_, before⟩, e, after, next, hcut, hbefore, hfault⟩
        · obtain ⟨rfl, rfl⟩ := List.cons.inj hcut
          obtain rfl := Except.ok.inj hbefore
          exact hadd.symm.trans hfault
        · obtain ⟨rfl, rfl⟩ := List.cons.inj hcut
          rw [List.foldlM_cons, hadd] at hbefore
          cases hbefore
    | ok middle =>
      refine Iff.trans ih ?_
      constructor
      · rintro ⟨before, e, after, next, rfl, hbefore, hfault⟩
        refine ⟨first :: before, e, after, next, rfl, ?_, hfault⟩
        rw [List.foldlM_cons, hadd]
        exact hbefore
      · rintro ⟨_ | ⟨_, before⟩, e, after, next, hcut, hbefore, hfault⟩
        · obtain ⟨rfl, rfl⟩ := List.cons.inj hcut
          obtain rfl := Except.ok.inj hbefore
          rw [hadd] at hfault
          cases hfault
        · obtain ⟨rfl, rfl⟩ := List.cons.inj hcut
          rw [List.foldlM_cons, hadd] at hbefore
          exact ⟨before, e, after, next, rfl, hbefore, hfault⟩

/-- Entries can be added if no two of them are for the same user and repository and none is for ones that
    have rules already. -/
theorem exists_foldlM_addEntry_iff :
    (∃ l', es.foldlM addEntry l = .ok l') ↔
      (es.map Entry.key).Nodup ∧ ∀ e ∈ es, l.rules? e.user e.repo = none := by
  induction es generalizing l with
  | nil => exact iff_of_true ⟨l, rfl⟩ (by simp)
  | cons first es ih =>
    rw [List.foldlM_cons, List.map_cons, List.nodup_cons, List.forall_mem_cons]
    cases hadd : l.addEntry first with
    | error fault =>
      obtain ⟨⟨rules, hrules⟩, -⟩ := addEntry_eq_error_iff.1 hadd
      exact iff_of_false (fun ⟨l', h⟩ => (by cases h)) fun h => by simp [hrules] at h
    | ok next =>
      obtain ⟨hnew, rfl⟩ := addEntry_eq_ok_iff.1 hadd
      refine Iff.trans ih ?_
      -- an entry is new to the next ledger just when it is new to this one and is for others
      have hother : ∀ e : Entry, (l.put first.user first.repo first.rules).rules? e.user e.repo = none ↔
          e.key ≠ first.key ∧ l.rules? e.user e.repo = none := by
        intro e
        rw [rules?_put, Entry.key, Entry.key, ne_eq, Prod.mk.injEq]
        split <;> simp_all
      have hfirst : (∀ e ∈ es, e.key ≠ first.key) ↔ first.key ∉ es.map Entry.key := by
        simp [List.mem_map]
      simp only [hother, hnew, imp_and, forall_and, hfirst, true_and]
      rw [and_assoc, and_left_comm]

/-- The ledger that the entries of a document are added to has no rules. -/
theorem rules?_foldl_setSupported (repos : List RepoName) (user : UserId) (repo : RepoName) :
    (repos.foldl (fun l repo => l.setSupported repo true) empty).rules? user repo = none := by
  rw [rules?_eq_find?, (foldl_setSupported_spec repos empty).1]
  rfl

theorem exists_ofDocument_iff :
    (∃ l, ofDocument d = .ok l) ↔ (d.entries.map Entry.key).Nodup := by
  rw [ofDocument]
  simp only [exists_foldlM_addEntry_iff, rules?_foldl_setSupported, implies_true, and_true]

/-- A document is refused for the earliest entry that repeats an earlier one. -/
theorem ofDocument_eq_error_iff :
    ofDocument d = .error fault ↔ ∃ e, FirstRepeated d.entries e ∧ fault = e.repetition := by
  rw [ofDocument]
  simp only [foldlM_addEntry_eq_error_iff, addEntry_eq_error_iff]
  constructor
  · rintro ⟨before, e, after, next, hcut, hbefore, ⟨rules, hrules⟩, hfault⟩
    refine ⟨e, ⟨before, after, hcut, ?_, (exists_foldlM_addEntry_iff.1 ⟨next, hbefore⟩).1⟩, hfault⟩
    rw [(foldlM_addEntry_spec hbefore).1, rules?_foldl_setSupported] at hrules
    exact mem_keys_iff.2 ⟨rules, hrules.resolve_left (by simp)⟩
  · rintro ⟨e, ⟨before, after, hcut, hmem, hnodup⟩, hfault⟩
    obtain ⟨next, hbefore⟩ := exists_foldlM_addEntry_iff.2
      ⟨hnodup, fun e _ => rules?_foldl_setSupported d.supported e.user e.repo⟩
    obtain ⟨rules, hrules⟩ := mem_keys_iff.1 hmem
    exact ⟨before, e, after, next, hcut, hbefore,
      ⟨rules, ((foldlM_addEntry_spec hbefore).1 _ _ _).2 (.inr hrules)⟩, hfault⟩

theorem lookup_eq_some_iff_mem (h : ofDocument d = .ok l) (user : UserId) (repo : RepoName)
    (rules : PathRules) :
    (l.rulesOf user).lookup repo = some rules ↔ ⟨user, repo, rules⟩ ∈ d.entries :=
  (ofDocument_spec h).1 user repo rules

/-- A document is not about the order of its entries, nor about that of the repositories it lists or how
    often it lists one. -/
theorem exists_answersAs_of_perm (h : ofDocument d = .ok l) {d' : RulesDocument}
    (hentries : d'.entries.Perm d.entries) (hsupported : ∀ repo, repo ∈ d'.supported ↔ repo ∈ d.supported) :
    ∃ l', ofDocument d' = .ok l' ∧ l'.AnswersAs l := by
  have hnodup : (d'.entries.map Entry.key).Nodup :=
    (hentries.map Entry.key).nodup_iff.2 (exists_ofDocument_iff.1 ⟨l, h⟩)
  obtain ⟨l', h'⟩ := exists_ofDocument_iff.2 hnodup
  refine ⟨l', h', fun user repo => ?_, fun repo => ?_⟩
  · ext rules
    rw [lookup_eq_some_iff_mem h', lookup_eq_some_iff_mem h, hentries.mem_iff]
  · rw [Bool.eq_iff_iff, (ofDocument_spec h').2.1, (ofDocument_spec h).2.1, hsupported]

/-- A document gives a ledger if no two of its entries are for the same user and repository. A user then
    has rules for the repositories that the document has an entry of the user for, which are those of the
    entry with the patterns in their order, and each of them once; the repositories with path rules are
    those that it lists; and another order of the entries and of the repositories, of which some may be
    repeated, makes no difference to the answers. Otherwise there is no ledger, and the fault names the
    user and the repository of the earliest entry that repeats an earlier one. -/
theorem ofDocument_exact (d : RulesDocument) :
    ((∃ l, ofDocument d = .ok l) ↔ (d.entries.map Entry.key).Nodup) ∧
    (∀ l, ofDocument d = .ok l →
      (∀ user, ((l.rulesOf user).map Prod.fst).Nodup) ∧
      (∀ user repo, repo ∈ (l.rulesOf user).map Prod.fst ↔ (user, repo) ∈ d.entries.map Entry.key) ∧
      (∀ user repo rules,
        (l.rulesOf user).lookup repo = some rules ↔ ⟨user, repo, rules⟩ ∈ d.entries) ∧
      (∀ repo, l.supports repo = true ↔ repo ∈ d.supported) ∧
      ∀ d' : RulesDocument, d'.entries.Perm d.entries →
        (∀ repo, repo ∈ d'.supported ↔ repo ∈ d.supported) →
        ∃ l', ofDocument d' = .ok l' ∧ l'.AnswersAs l) ∧
    ∀ fault, ofDocument d = .error fault ↔
      ∃ e, FirstRepeated d.entries e ∧ fault = e.repetition := by
  refine ⟨exists_ofDocument_iff, fun l h => ?_, fun fault => ofDocument_eq_error_iff⟩
  obtain ⟨hrules, hsupports, hdistinct⟩ := ofDocument_spec h
  refine ⟨nodup_keys_rulesOf hdistinct, fun user repo => ?_, hrules, hsupports,
    fun d' hentries hsupported => exists_answersAs_of_perm h hentries hsupported⟩
  rw [mem_keys_rulesOf_iff, mem_keys_iff]
  exact exists_congr fun rules => hrules user repo rules

/-- Entries that share only the user or only the repository do not repeat one another. -/
theorem ofDocument_exact_repeated :
    ofDocument ⟨[], [⟨5, "r", .empty⟩, ⟨5, "s", .empty⟩, ⟨6, "r", .empty⟩, ⟨5, "r", ⟨["r/**"], []⟩⟩,
        ⟨6, "r", .empty⟩]⟩ =
      .error (.invalid "duplicate rules for user 5 in repo 'r'") := by
  obtain ⟨-, -, hrefused⟩ := ofDocument_exact ⟨[], [⟨5, "r", .empty⟩, ⟨5, "s", .empty⟩,
    ⟨6, "r", .empty⟩, ⟨5, "r", ⟨["r/**"], []⟩⟩, ⟨6, "r", .empty⟩]⟩
  refine (hrefused _).2 ⟨⟨5, "r", ⟨["r/**"], []⟩⟩,
    ⟨[⟨5, "r", .empty⟩, ⟨5, "s", .empty⟩, ⟨6, "r", .empty⟩], [⟨6, "r", .empty⟩], rfl, ?_⟩, ?_⟩
  · decide
  · decide +kernel

end PathGuard.Ledger
