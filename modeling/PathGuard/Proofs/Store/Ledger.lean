import PathGuard.Rules.Document

/-!
# Reading back from ledgers

What a ledger answers after a write is told from the write and from what it answered before. A write
for one user and repository shows in the answers about these alone. The ledger of a document answers
with the entries of the document.

## Main definitions

- `Ledger.IsDistinct`: ledgers with at most one entry for a user and a repository

## Main results

- `Ledger.rules?_put`, `Ledger.rules?_removeUser`, `Ledger.supports_setSupported`: reading after writing
- `Ledger.nodup_keys_rulesOf`: no repository comes twice in the rules of a user
- `Ledger.ofDocument_spec`: what the ledger of a document answers
-/

namespace PathGuard

namespace Ledger

variable {l : Ledger} {user : UserId} {repo : RepoName}

@[simp] theorem Entry.isFor_iff (e : Entry) (user : UserId) (repo : RepoName) :
    e.isFor user repo = true ↔ e.user = user ∧ e.repo = repo := by
  simp [isFor]

theorem lookup_map_rules (es : List Entry) (repo : RepoName) :
    (es.map fun e => (e.repo, e.rules)).lookup repo =
      (es.find? (·.repo == repo)).map (·.rules) := by
  induction es with
  | nil => rfl
  | cons e es ih =>
    rw [List.map_cons, List.lookup_cons, List.find?_cons, ih, Bool.beq_comm]
    cases e.repo == repo <;> rfl

/-- The rules of a user for a repository are those of the first entry for them. -/
theorem rules?_eq_find? (l : Ledger) (user : UserId) (repo : RepoName) :
    l.rules? user repo = (l.entries.find? (·.isFor user repo)).map (·.rules) := by
  rw [rules?, rulesOf, lookup_map_rules, List.find?_filter]
  congr 2
  funext e
  simp only [Entry.isFor, Bool.decide_and, Bool.decide_eq_true]

/-! ### Reading after writing -/

/-- Entries that are not for a user and a repository do not matter to the rules for these. -/
theorem rules?_filter (l : Ledger) {keep : Entry → Bool}
    (h : ∀ e : Entry, e.isFor user repo = true → keep e = true) :
    (⟨l.entries.filter keep, l.supported⟩ : Ledger).rules? user repo = l.rules? user repo := by
  have hkept : ∀ e : Entry, (keep e && e.isFor user repo) = e.isFor user repo := by
    intro e
    cases he : e.isFor user repo with
    | false => rw [Bool.and_false]
    | true => rw [h e he, Bool.and_true]
  rw [rules?_eq_find?, rules?_eq_find?, List.find?_filter]
  simp only [← Bool.and_eq_true, Bool.decide_eq_true, hkept]

theorem rules?_put (l : Ledger) (user : UserId) (repo : RepoName) (rules : PathRules)
    (user' : UserId) (repo' : RepoName) :
    (l.put user repo rules).rules? user' repo' =
      if user' = user ∧ repo' = repo then some rules else l.rules? user' repo' := by
  by_cases h : user' = user ∧ repo' = repo
  · obtain ⟨rfl, rfl⟩ := h
    rw [rules?_put_self, if_pos ⟨rfl, rfl⟩]
  · have hnew : Entry.isFor ⟨user, repo, rules⟩ user' repo' = false := by
      rw [← Bool.not_eq_true, Entry.isFor_iff]
      rintro ⟨rfl, rfl⟩
      exact h ⟨rfl, rfl⟩
    have hkeep : ∀ e : Entry, e.isFor user' repo' = true → (!e.isFor user repo) = true := by
      intro e he
      obtain ⟨rfl, rfl⟩ := (e.isFor_iff _ _).1 he
      rw [Bool.not_eq_true', ← Bool.not_eq_true, Entry.isFor_iff]
      exact h
    rw [if_neg h, ← rules?_filter l hkeep, rules?_eq_find?, rules?_eq_find?, put, List.find?_cons,
      hnew]

theorem rules?_removeUser (l : Ledger) (user user' : UserId) (repo : RepoName) :
    (l.removeUser user).rules? user' repo =
      if user' = user then none else l.rules? user' repo := by
  by_cases h : user' = user
  · subst h
    rw [if_pos rfl, rules?, rulesOf_removeUser_self]
    rfl
  · have hkeep : ∀ e : Entry, e.isFor user' repo = true → (e.user != user) = true := by
      intro e he
      obtain ⟨rfl, -⟩ := (e.isFor_iff _ _).1 he
      exact bne_iff_ne.2 h
    rw [if_neg h, ← rules?_filter l hkeep]
    rfl

@[simp] theorem rules?_setSupported (l : Ledger) (repo : RepoName) (value : Bool) (user : UserId)
    (repo' : RepoName) : (l.setSupported repo value).rules? user repo' = l.rules? user repo' :=
  rfl

@[simp] theorem supports_put (l : Ledger) (user : UserId) (repo : RepoName) (rules : PathRules)
    (repo' : RepoName) : (l.put user repo rules).supports repo' = l.supports repo' :=
  rfl

@[simp] theorem supports_removeUser (l : Ledger) (user : UserId) (repo : RepoName) :
    (l.removeUser user).supports repo = l.supports repo :=
  rfl

theorem supports_setSupported (l : Ledger) (repo : RepoName) (value : Bool) (repo' : RepoName) :
    (l.setSupported repo value).supports repo' =
      if repo' = repo then value else l.supports repo' := by
  split
  · next h =>
    subst h
    exact supports_setSupported_self l _ value
  · next h => cases value <;> simp [setSupported, supports, h]

/-! ### One entry for a user and a repository -/

/-- No two entries are for the same user and repository. -/
def IsDistinct (l : Ledger) : Prop :=
  l.entries.Pairwise fun e later => e.isFor later.user later.repo = false

theorem isDistinct_empty : empty.IsDistinct :=
  List.Pairwise.nil

theorem IsDistinct.put (h : l.IsDistinct) (user : UserId) (repo : RepoName) (rules : PathRules) :
    (l.put user repo rules).IsDistinct := by
  refine List.Pairwise.cons (fun e he => ?_) (h.filter _)
  have hother := (List.mem_filter.1 he).2
  rw [Bool.not_eq_true'] at hother
  rw [← hother, Entry.isFor, Entry.isFor, Bool.beq_comm, Bool.beq_comm (a := repo)]

theorem IsDistinct.removeUser (h : l.IsDistinct) (user : UserId) :
    (l.removeUser user).IsDistinct :=
  h.filter _

theorem IsDistinct.setSupported (h : l.IsDistinct) (repo : RepoName) (value : Bool) :
    (l.setSupported repo value).IsDistinct :=
  h

/-- No repository comes twice in the rules of a user. -/
theorem nodup_keys_rulesOf (h : l.IsDistinct) (user : UserId) :
    ((l.rulesOf user).map Prod.fst).Nodup := by
  have hkeys : (l.rulesOf user).map Prod.fst =
      (l.entries.filter (·.user == user)).map (·.repo) := by
    rw [rulesOf, List.map_map]
    rfl
  rw [hkeys, List.Nodup, List.pairwise_map]
  refine List.Pairwise.imp_of_mem (fun he hlater hother hrepo => ?_) (h.filter _)
  have huser := beq_iff_eq.1 (List.mem_filter.1 he).2
  have huser' := beq_iff_eq.1 (List.mem_filter.1 hlater).2
  have hsame := (Entry.isFor_iff _ _ _).2 ⟨huser.trans huser'.symm, hrepo⟩
  rw [hother] at hsame
  cases hsame

/-- The repositories that come in the rules of a user are those for which the user has rules. -/
theorem mem_keys_rulesOf_iff (l : Ledger) (user : UserId) (repo : RepoName) :
    repo ∈ (l.rulesOf user).map Prod.fst ↔ ∃ rules, l.rules? user repo = some rules := by
  rw [← Option.isSome_iff_exists, rules?, List.lookup_isSome_iff, List.mem_map]
  refine exists_congr fun listed => and_congr_right fun _ => ?_
  rw [beq_iff_eq, eq_comm]

/-! ### The ledger of a document -/

theorem addEntry_eq_ok_iff {l l' : Ledger} {e : Entry} :
    l.addEntry e = .ok l' ↔
      l.rules? e.user e.repo = none ∧ l' = l.put e.user e.repo e.rules := by
  unfold addEntry
  cases l.rules? e.user e.repo <;> simp [eq_comm]

/-- Adding entries leaves the rules that are there, and adds those listed. -/
theorem foldlM_addEntry_spec {l l' : Ledger} {es : List Entry} (h : es.foldlM addEntry l = .ok l') :
    (∀ user repo rules, l'.rules? user repo = some rules ↔
      l.rules? user repo = some rules ∨ ⟨user, repo, rules⟩ ∈ es) ∧
    l'.supported = l.supported ∧ (l.IsDistinct → l'.IsDistinct) := by
  induction es generalizing l with
  | nil =>
    obtain rfl : l = l' := Except.ok.inj h
    simp
  | cons e es ih =>
    rw [List.foldlM_cons] at h
    cases hadd : l.addEntry e with
    | error fault => simp [hadd, bind, Except.bind] at h
    | ok next =>
      rw [hadd] at h
      obtain ⟨hnew, rfl⟩ := addEntry_eq_ok_iff.1 hadd
      obtain ⟨hrules, hsupported, hdistinct⟩ := ih h
      refine ⟨fun user repo rules => ?_, hsupported, fun hl => hdistinct (hl.put _ _ _)⟩
      rw [hrules, rules?_put, List.mem_cons]
      obtain ⟨user', repo', rules'⟩ := e
      by_cases hfor : user = user' ∧ repo = repo'
      · obtain ⟨rfl, rfl⟩ := hfor
        simp [hnew, eq_comm]
      · have hother : (⟨user, repo, rules⟩ : Entry) ≠ ⟨user', repo', rules'⟩ := by
          rintro ⟨⟩
          exact hfor ⟨rfl, rfl⟩
        simp [hfor, hother]

theorem foldl_setSupported_spec (repos : List RepoName) (l : Ledger) :
    (repos.foldl (fun l repo => l.setSupported repo true) l).entries = l.entries ∧
    ∀ repo, (repos.foldl (fun l repo => l.setSupported repo true) l).supports repo = true ↔
      l.supports repo = true ∨ repo ∈ repos := by
  induction repos generalizing l with
  | nil => simp
  | cons first repos ih =>
    obtain ⟨hentries, hsupports⟩ := ih (l.setSupported first true)
    refine ⟨hentries, fun repo => ?_⟩
    rw [List.foldl_cons, hsupports, supports_setSupported, List.mem_cons]
    by_cases h : repo = first <;> simp [h]

/-- The ledger of a document holds the entries of the document and supports the repositories that it
    lists. -/
theorem ofDocument_spec {d : RulesDocument} {l : Ledger} (h : ofDocument d = .ok l) :
    (∀ user repo rules, l.rules? user repo = some rules ↔ ⟨user, repo, rules⟩ ∈ d.entries) ∧
    (∀ repo, l.supports repo = true ↔ repo ∈ d.supported) ∧ l.IsDistinct := by
  obtain ⟨hrules, hsupported, hdistinct⟩ := foldlM_addEntry_spec h
  obtain ⟨hentries, hsupports⟩ := foldl_setSupported_spec d.supported empty
  refine ⟨fun user repo rules => ?_, fun repo => ?_, hdistinct ?_⟩
  · rw [hrules, rules?_eq_find?, hentries]
    simp [empty]
  · rw [supports, hsupported, ← supports, hsupports]
    simp [supports, empty]
  · rw [IsDistinct, hentries]
    exact isDistinct_empty

end Ledger

end PathGuard
