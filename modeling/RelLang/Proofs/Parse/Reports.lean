import RelLang.Proofs.Parse.Lossless
import RelLang.Proofs.Rule.Bare

/-!
# Before the first token and behind the last

Which tokens are to come and which reports there are before the first token is read, and what the
sorting of the diagnostics does to some of them: those that pass a test are sorted as if there
were no others.
-/

namespace RelLang

/-! ### Sorting -/

/-- Two lists with the same elements in front of `a` and behind it are equal part by part. -/
theorem eq_of_append_eq_append_of_le {α : Type} {le : α → α → Bool} {a : α} {l₁ l₂ m₁ m₂ : List α}
    (h : l₁ ++ l₂ = m₁ ++ m₂) (hl₁ : ∀ b ∈ l₁, le a b = false) (hl₂ : ∀ b ∈ l₂, le a b = true)
    (hm₁ : ∀ b ∈ m₁, le a b = false) (hm₂ : ∀ b ∈ m₂, le a b = true) : l₁ = m₁ ∧ l₂ = m₂ := by
  have hfilter {xs ys : List α} (hxs : ∀ b ∈ xs, le a b = false) (hys : ∀ b ∈ ys, le a b = true) :
      (xs ++ ys).filter (fun b => !le a b) = xs := by
    rw [List.filter_append, List.filter_eq_self.mpr (by simpa using hxs),
      List.filter_eq_nil_iff.mpr (by simpa using hys), List.append_nil]
  have hfront : l₁ = m₁ := by rw [← hfilter hl₁ hl₂, h, hfilter hm₁ hm₂]
  subst hfront
  exact ⟨rfl, List.append_cancel_left h⟩

/-- What passes a test is sorted as if there were nothing else. -/
theorem filter_mergeSort {α : Type} {le : α → α → Bool}
    (htrans : ∀ a b c, le a b = true → le b c = true → le a c = true)
    (htotal : ∀ a b, (le a b || le b a) = true) (passes : α → Bool) (l : List α) :
    (l.mergeSort le).filter passes = (l.filter passes).mergeSort le := by
  induction l with
  | nil => simp
  | cons a l ih =>
    obtain ⟨l₁, l₂, hcons, hl, hl₁⟩ := List.mergeSort_cons htrans htotal a l
    rw [hcons]
    by_cases ha : passes a = true
    · obtain ⟨m₁, m₂, hcons', hm, hm₁⟩ := List.mergeSort_cons htrans htotal a (l.filter passes)
      have hbehind {xs ys zs : List α} (h : zs.mergeSort le = xs ++ a :: ys) :
          ∀ b ∈ ys, le a b = true := by
        have hsorted := List.pairwise_mergeSort htrans htotal zs
        rw [h] at hsorted
        exact (List.pairwise_cons.mp (List.pairwise_append.mp hsorted).2.1).1
      have hparts : l₁.filter passes ++ l₂.filter passes = m₁ ++ m₂ := by
        rw [← hm, ← ih, hl, List.filter_append]
      have hfront : ∀ b ∈ l₁.filter passes, le a b = false :=
        fun b hb => by simpa using hl₁ b (List.mem_filter.mp hb).1
      have hback : ∀ b ∈ l₂.filter passes, le a b = true :=
        fun b hb => hbehind hcons b (List.mem_filter.mp hb).1
      obtain ⟨rfl, rfl⟩ := eq_of_append_eq_append_of_le hparts hfront hback
        (fun b hb => by simpa using hm₁ b hb) (hbehind hcons')
      rw [List.filter_cons_of_pos ha, hcons', List.filter_append, List.filter_cons_of_pos ha]
    · rw [List.filter_cons_of_neg ha, ← ih, hl, List.filter_append, List.filter_append,
        List.filter_cons_of_neg ha]

namespace Parse

/-- The diagnostics that pass a test are the sorted ones of the reports that do. -/
theorem filter_errors (p : Parse) (passes : Diagnostic → Bool) :
    p.errors.filter passes
      = { p with reports := p.reports.filter fun r => passes r.toDiagnostic }.errors := by
  rw [errors, errors, filter_mergeSort, List.filter_map]
  · rfl
  · intro d e f hde hef
    simp only [decide_eq_true_eq] at hde hef ⊢
    omega
  · intro d e
    simp only [Bool.or_eq_true, decide_eq_true_eq]
    omega

theorem errors_of_filter {p q : Parse} {passes : Diagnostic → Bool}
    (h : q.reports = p.reports.filter fun r => passes r.toDiagnostic) :
    q.errors = p.errors.filter passes := by
  rw [filter_errors, errors, errors, h]

/-- The outcome is told by the fatal reports alone. -/
theorem failure?_congr {p q : Parse}
    (h : p.reports.filter (·.fatal) = q.reports.filter (·.fatal)) : p.failure? = q.failure? := by
  have hfilter (p : Parse) : p.failure? =
      ({ p with reports := p.reports.filter (·.fatal) }.errors).head? := by
    rw [failure?, ← List.head?_filter]
    exact congrArg List.head? (filter_errors p (·.fatal))
  rw [hfilter p, hfilter q, h]
  rfl

theorem hasFatal_eq_isSome (p : Parse) : p.hasFatal = p.failure?.isSome := by
  rw [hasFatal, failure?, Bool.eq_iff_iff, List.any_eq_true, List.find?_isSome]

/-- There are diagnostics unless there is nothing to say. -/
theorem errors_eq_nil_iff {p : Parse} : p.errors = [] ↔ p.ok = true := by
  rw [ok, List.isEmpty_iff, errors, ← List.length_eq_zero_iff, List.length_mergeSort,
    List.length_map, List.length_eq_zero_iff]

/-! ### Before the first token -/

/-- The significant tokens are all to come. -/
theorem input_start {config : ParseConfig} {tokens : List Token} : (start config tokens).input
    = (tokens.filter (·.kind.isSignificant)).map Token.toPair := by
  have hwords := (valid_start config tokens).filter_rest
  rw [rest_start] at hwords
  rw [State.input, hwords, List.map_map]
  rfl

theorem temporal_start (config : ParseConfig) (tokens : List Token) :
    (start config tokens).temporal
      = config.admitsTemporal (languageOf (tokens.map Token.toPair)) := by
  obtain ⟨_, h⟩ := start_eq config tokens
  rw [h]

theorem reports_start_of_uncapped (config : ParseConfig) (tokens : List Token)
    (h : config.maxDiagnostics = none) :
    (start config tokens).reports
      = ((tokens.filter (·.kind == .invalid)).map Report.ofInvalid).reverse := by
  have hfold : ∀ (ts : List Token) (s : State),
      (ts.foldl (fun s t => s.keep (setting config tokens) (Report.ofInvalid t)) s).reports
        = (ts.map Report.ofInvalid).reverse ++ s.reports := by
    intro ts
    induction ts with
    | nil => exact fun s => rfl
    | cons t ts ih =>
      intro s
      rw [List.foldl_cons, ih, List.map_cons, List.reverse_cons, List.append_assoc]
      simp [State.keep, setting, h]
  exact (hfold _ _).trans (List.append_nil _)

end Parse
end RelLang
