import Unirc.Resolver

/-!
# A query is answered at most once

A query has one request at most, and none when its callback has been called or its requests were
deleted. Every event keeps this as long as no callback made by `timeout_query_list` deletes the
request that this loop goes to next.
-/

namespace Unirc

namespace Dns

/-- The query has come to an end. -/
def Ended (log : List QueryEnd) (query : ℕ) : Prop :=
  QueryEnd.called query ∈ log ∨ QueryEnd.deleted query ∈ log

/-- No callback is called for a query that has come to an end before. -/
def InOrder (log : List QueryEnd) : Prop :=
  log.Pairwise fun x y => ∀ query, x = .called query ∨ x = .deleted query → y ≠ .called query

theorem ended_append {log log' : List QueryEnd} {query : ℕ} :
    Ended (log ++ log') query ↔ Ended log query ∨ Ended log' query := by
  simp only [Ended, List.mem_append]
  tauto

theorem InOrder.deleted {log : List QueryEnd} (h : InOrder log) (query : ℕ) :
    InOrder (log ++ [.deleted query]) :=
  List.pairwise_append.mpr ⟨h, List.pairwise_singleton _ _, by simp⟩

theorem InOrder.called {log : List QueryEnd} (h : InOrder log) {query : ℕ}
    (hquery : ¬ Ended log query) : InOrder (log ++ [.called query]) := by
  refine List.pairwise_append.mpr ⟨h, List.pairwise_singleton _ _, fun x hx y hy q hq hcall => ?_⟩
  rw [List.mem_singleton.mp hy] at hcall
  obtain rfl := QueryEnd.called.inj hcall
  obtain rfl | rfl := hq
  · exact hquery (Or.inl hx)
  · exact hquery (Or.inr hx)

namespace Resolver

/-- The requests keep their queries and their places. -/
structure SameQueries (s s' : Resolver) : Prop where
  list : s'.requestList = s.requestList
  nextRequest : s'.nextRequest = s.nextRequest
  nextQuery : s'.nextQuery = s.nextQuery
  log : s'.log = s.log
  query : ∀ r, (s'.requests r).map Request.query = (s.requests r).map Request.query

namespace SameQueries

variable {s s' s'' : Resolver}

theorem refl (s : Resolver) : SameQueries s s := ⟨rfl, rfl, rfl, rfl, fun _ => rfl⟩

theorem trans (h : SameQueries s s') (h' : SameQueries s' s'') : SameQueries s s'' :=
  ⟨h'.list.trans h.list, h'.nextRequest.trans h.nextRequest, h'.nextQuery.trans h.nextQuery,
    h'.log.trans h.log, fun r => (h'.query r).trans (h.query r)⟩

theorem isFor (h : SameQueries s s') (query r : ℕ) : s'.isFor query r = s.isFor query r := by
  have hq := congrArg (Option.any (· == query)) (h.query r)
  rw [Option.any_map, Option.any_map] at hq
  exact hq

theorem updRequest (s : Resolver) (r : ℕ) {f : Request → Request}
    (hf : ∀ request, s.requests r = some request → (f request).query = request.query) :
    SameQueries s (s.updRequest r f) := by
  refine ⟨rfl, rfl, rfl, rfl, fun r' => ?_⟩
  by_cases hr : r' = r
  · subst hr
    cases hreq : s.requests r' with
    | none => simp [Resolver.updRequest, hreq]
    | some request => simp [Resolver.updRequest, hreq, hf request hreq]
  · simp [Resolver.updRequest, Function.update_of_ne hr]

theorem queryName (s : Resolver) (wires : Wires) (r : ℕ) :
    SameQueries s (s.queryName wires r) := by
  unfold Resolver.queryName
  split
  · exact refl s
  · exact updRequest s r fun _ _ => rfl

theorem doQueryName (s : Resolver) (wires : Wires) (r type : ℕ) :
    SameQueries s (s.doQueryName wires r type) :=
  (@updRequest s r (fun request => { request with type := type }) fun _ _ => rfl).trans
    (queryName _ wires r)

theorem resendQuery (s : Resolver) (wires : Wires) (r : ℕ) :
    SameQueries s (s.resendQuery wires r) := by
  unfold Resolver.resendQuery
  split
  · exact refl s
  · split_ifs
    · exact refl s
    · exact queryName s wires r
    · exact doQueryName s wires r _
    · exact doQueryName s wires r _
    · exact refl s

end SameQueries

/-- The requests of a resolver, where the query `busy` has a request that is about to go. -/
structure Inv (busy : Option ℕ) (s : Resolver) : Prop where
  nodup : s.requestList.Nodup
  known : ∀ r ∈ s.requestList, ∃ query < s.nextQuery, s.isFor query r = true
  fresh : ∀ r, s.nextRequest ≤ r → s.requests r = none
  one : ∀ query, ∀ r ∈ s.requestList, ∀ r' ∈ s.requestList, s.isFor query r = true →
    s.isFor query r' = true → r = r'
  logged : ∀ query, Ended s.log query → query < s.nextQuery
  done : ∀ query, Ended s.log query → busy ≠ some query → ∀ r ∈ s.requestList,
    s.isFor query r = false
  order : InOrder s.log

theorem isFor_eq_true {s : Resolver} {query r : ℕ} :
    s.isFor query r = true ↔ ∃ request, s.requests r = some request ∧ request.query = query := by
  unfold isFor
  cases s.requests r with
  | none => simp
  | some request => simp

theorem isFor_unique {s : Resolver} {query query' r : ℕ} (h : s.isFor query r = true)
    (h' : s.isFor query' r = true) : query = query' := by
  obtain ⟨request, hr, rfl⟩ := isFor_eq_true.mp h
  obtain ⟨request', hr', rfl⟩ := isFor_eq_true.mp h'
  rw [Option.some.inj (hr.symm.trans hr')]

@[simp] theorem isFor_deleteResolverQueries (s : Resolver) (query query' r : ℕ) :
    (s.deleteResolverQueries query').isFor query r = s.isFor query r := rfl

namespace Inv

variable {busy : Option ℕ} {s s' : Resolver}

theorem init : Inv none Resolver.init where
  nodup := List.nodup_nil
  known := by simp [Resolver.init]
  fresh := fun _ _ => rfl
  one := by simp [Resolver.init]
  logged := by simp [Resolver.init, Ended]
  done := by simp [Resolver.init]
  order := List.Pairwise.nil

theorem of_sameQueries (h : Inv busy s) (hs : SameQueries s s') : Inv busy s' where
  nodup := hs.list ▸ h.nodup
  known := by
    intro r hr
    rw [hs.list] at hr
    obtain ⟨query, hlt, hfor⟩ := h.known r hr
    exact ⟨query, hs.nextQuery ▸ hlt, by rw [hs.isFor, hfor]⟩
  fresh := by
    intro r hr
    have hq := hs.query r
    rw [h.fresh r (hs.nextRequest ▸ hr)] at hq
    exact Option.map_eq_none_iff.mp hq
  one := by
    intro query r hr r' hr' hfor hfor'
    rw [hs.list] at hr hr'
    rw [hs.isFor] at hfor hfor'
    exact h.one query r hr r' hr' hfor hfor'
  logged := fun query hq => by
    rw [hs.log] at hq
    exact hs.nextQuery ▸ h.logged query hq
  done := by
    intro query hq hb r hr
    rw [hs.log] at hq
    rw [hs.list] at hr
    rw [hs.isFor]
    exact h.done query hq hb r hr
  order := hs.log ▸ h.order

theorem lt_nextRequest (h : Inv busy s) {r : ℕ} (hr : r ∈ s.requestList) : r < s.nextRequest := by
  by_contra hle
  obtain ⟨query, -, hfor⟩ := h.known r hr
  obtain ⟨request, hreq, -⟩ := isFor_eq_true.mp hfor
  rw [h.fresh r (not_lt.mp hle)] at hreq
  cases hreq

/-- A request is made for a query that has none and has not come to an end. -/
theorem makeRequest (h : Inv busy s) (now : ℤ) {query : ℕ} (hquery : query < s.nextQuery)
    (hnone : ∀ r ∈ s.requestList, s.isFor query r = false) (hend : ¬ Ended s.log query)
    (state : RequestState) (type : ℕ) (addr : IpAddr) (name : Str) :
    Inv busy (s.makeRequest now query state type addr name) := by
  have hnew : s.nextRequest ∉ s.requestList := fun hr => absurd (h.lt_nextRequest hr) (lt_irrefl _)
  have hself : ∀ q, (s.makeRequest now query state type addr name).isFor q s.nextRequest =
      (query == q) := by
    intro q
    simp [isFor, Resolver.makeRequest]
  have hold : ∀ q, ∀ r ∈ s.requestList,
      (s.makeRequest now query state type addr name).isFor q r = s.isFor q r := by
    intro q r hr
    have hne : r ≠ s.nextRequest := fun he => hnew (he ▸ hr)
    simp [isFor, Resolver.makeRequest, Function.update_of_ne hne]
  refine ⟨List.nodup_cons.mpr ⟨hnew, h.nodup⟩, fun r hr => ?_, fun r hr => ?_,
    fun q r hr r' hr' hq hq' => ?_, h.logged, fun q hq hb r hr => ?_, h.order⟩
  · obtain rfl | hr := List.mem_cons.mp hr
    · exact ⟨query, hquery, by rw [hself, beq_self_eq_true]⟩
    · obtain ⟨q, hlt, hq⟩ := h.known r hr
      exact ⟨q, hlt, by rw [hold q r hr, hq]⟩
  · have hne : r ≠ s.nextRequest := by
      rintro rfl
      exact absurd hr (by simp [Resolver.makeRequest])
    simp only [Resolver.makeRequest, Function.update_of_ne hne] at hr ⊢
    exact h.fresh r (by omega)
  · obtain rfl | hr := List.mem_cons.mp hr
    · obtain rfl | hr' := List.mem_cons.mp hr'
      · rfl
      · rw [hself, beq_iff_eq] at hq
        rw [hold q r' hr', ← hq, hnone r' hr'] at hq'
        cases hq'
    · obtain rfl | hr' := List.mem_cons.mp hr'
      · rw [hself, beq_iff_eq] at hq'
        rw [hold q r hr, ← hq', hnone r hr] at hq
        cases hq
      · rw [hold q r hr] at hq
        rw [hold q r' hr'] at hq'
        exact h.one q r hr r' hr' hq hq'
  · obtain rfl | hr := List.mem_cons.mp hr
    · rw [hself, beq_eq_false_iff_ne]
      rintro rfl
      exact hend hq
    · rw [hold q r hr]
      exact h.done q hq hb r hr

/-- The next query is new. -/
theorem newQuery (h : Inv busy s) : Inv busy { s with nextQuery := s.nextQuery + 1 } :=
  { h with
    known := fun r hr => by
      obtain ⟨query, hlt, hfor⟩ := h.known r hr
      exact ⟨query, Nat.lt_succ_of_lt hlt, hfor⟩
    logged := fun query hq => Nat.lt_succ_of_lt (h.logged query hq) }

theorem not_isFor_nextQuery (h : Inv busy s) {r : ℕ} (hr : r ∈ s.requestList) :
    s.isFor s.nextQuery r = false := by
  by_contra hne
  obtain ⟨query, hlt, hfor⟩ := h.known r hr
  rw [isFor_unique hfor (by simpa using hne)] at hlt
  exact absurd hlt (lt_irrefl _)

theorem lookup (h : Inv busy s) (now : ℤ) (state : RequestState) (type : ℕ) (addr : IpAddr)
    (name : Str) (wires : Wires) :
    Inv busy ((({ s with nextQuery := s.nextQuery + 1 } : Resolver).makeRequest now s.nextQuery
      state type addr name).queryName wires s.nextRequest) :=
  (h.newQuery.makeRequest now (Nat.lt_succ_self _) (fun _ hr => h.not_isFor_nextQuery hr)
    (fun hend => absurd (h.logged _ hend) (lt_irrefl _)) state type addr name).of_sameQueries
    (SameQueries.queryName _ wires _)

theorem deleteResolverQueries (h : Inv busy s) {query : ℕ} (hquery : query < s.nextQuery) :
    Inv busy (s.deleteResolverQueries query) := by
  refine ⟨h.nodup.filter _, fun r hr => h.known r (List.mem_of_mem_filter hr), h.fresh,
    fun q r hr r' hr' => h.one q r (List.mem_of_mem_filter hr) r' (List.mem_of_mem_filter hr'),
    fun q hq => ?_, fun q hq hb r hr => ?_, h.order.deleted query⟩
  · obtain hq | hq := ended_append.mp hq
    · exact h.logged q hq
    · obtain rfl : q = query := by simpa [Ended] using hq
      exact hquery
  · have hmem := List.mem_filter.mp hr
    obtain hq | hq := ended_append.mp hq
    · exact h.done q hq hb r hmem.1
    · obtain rfl : q = query := by simpa [Ended] using hq
      rw [isFor_deleteResolverQueries]
      simpa using hmem.2

variable (domain : Str)

theorem act (h : Inv busy s) {a : QueryAction} : Inv busy (s.act domain a) := by
  cases a with
  | byAddr now addr wires => exact h.lookup now _ _ _ _ wires
  | byName now name type wires => exact h.lookup now _ _ _ _ wires
  | cancel query =>
      simp only [Resolver.act]
      split
      · rename_i hlt
        exact h.deleteResolverQueries hlt
      · exact h

theorem foldl_act (h : Inv busy s) {actions : List QueryAction} :
    Inv busy (actions.foldl (Resolver.act domain) s) := by
  induction actions generalizing s with
  | nil => exact h
  | cons a actions ih => exact ih (h.act domain)

/-- The callback of a query that has a request is called. -/
theorem called (h : Inv none s) {query r : ℕ} (hr : r ∈ s.requestList)
    (hfor : s.isFor query r = true) :
    Inv (some query) { s with log := s.log ++ [.called query] } := by
  have hend : ¬ Ended s.log query := fun he => by
    rw [h.done query he (by simp) r hr] at hfor
    cases hfor
  have hlt : query < s.nextQuery := by
    obtain ⟨q, hlt, hq⟩ := h.known r hr
    rwa [isFor_unique hfor hq]
  refine ⟨h.nodup, h.known, h.fresh, h.one, fun q hq => ?_, fun q hq hb => ?_,
    h.order.called hend⟩
  · obtain hq | hq := ended_append.mp hq
    · exact h.logged q hq
    · obtain rfl : q = query := by simpa [Ended] using hq
      exact hlt
  · obtain hq | hq := ended_append.mp hq
    · exact h.done q hq (by simp)
    · obtain rfl : q = query := by simpa [Ended] using hq
      exact absurd rfl hb

/-- The request of the busy query goes. -/
theorem remRequest {query r : ℕ} (h : Inv (some query) s) (hr : r ∈ s.requestList)
    (hfor : s.isFor query r = true) : Inv none (s.remRequest r) := by
  have hlist : (s.remRequest r).requestList = s.requestList.erase r := if_pos hr
  refine ⟨hlist ▸ h.nodup.erase r, fun r' hr' => h.known r' (List.mem_of_mem_erase (hlist ▸ hr')),
    h.fresh, fun q r' hr' r'' hr'' => h.one q r' (List.mem_of_mem_erase (hlist ▸ hr')) r''
      (List.mem_of_mem_erase (hlist ▸ hr'')), h.logged, fun q hq _ r' hr' => ?_, h.order⟩
  rw [hlist, h.nodup.mem_erase_iff] at hr'
  by_cases hqq : q = query
  · subst hqq
    by_contra hne
    exact hr'.1 (h.one q r' hr'.2 r hr (Bool.not_eq_false _ ▸ hne) hfor)
  · exact h.done q hq (by simpa using Ne.symm hqq) r' hr'.2

end Inv

section Callback

variable {s : Resolver} (domain : Str) (react : ℕ → List QueryAction)

/-- The queries that a callback deletes. -/
def cancelled (query : ℕ) : List ℕ :=
  (react query).filterMap fun
    | .cancel other => if other = query then none else some other
    | _ => none

theorem old_makeRequest {query : ℕ} {state : RequestState} {type : ℕ} {addr : IpAddr} {name : Str}
    {now : ℤ} {wires : Wires} {r : ℕ} (hr : r < s.nextRequest) :
    let s' := (s.makeRequest now query state type addr name).queryName wires s.nextRequest
    s'.requests r = s.requests r ∧ (r ∈ s'.requestList ↔ r ∈ s.requestList) ∧
      r < s'.nextRequest := by
  have hne : r ≠ s.nextRequest := Nat.ne_of_lt hr
  have hsame := SameQueries.queryName (s.makeRequest now query state type addr name) wires
    s.nextRequest
  refine ⟨?_, ?_, ?_⟩
  · unfold queryName
    split
    · simp [makeRequest, Function.update_of_ne hne]
    · simp [makeRequest, updRequest, Function.update_of_ne hne]
  · rw [hsame.list]
    simp [makeRequest, hne]
  · rw [hsame.nextRequest]
    exact Nat.lt_succ_of_lt hr

theorem old_act {busy : Option ℕ} (h : Inv busy s) {r : ℕ} (hr : r < s.nextRequest)
    (a : QueryAction) : (s.act domain a).requests r = s.requests r ∧
      (r ∈ (s.act domain a).requestList ↔ r ∈ s.requestList ∧
        ∀ query, s.isFor query r = true → a ≠ .cancel query) ∧
      r < (s.act domain a).nextRequest := by
  cases a with
  | byAddr now addr wires =>
      obtain ⟨h1, h2, h3⟩ := @old_makeRequest { s with nextQuery := s.nextQuery + 1 } s.nextQuery
        .reqIdle T_PTR addr [] now wires r hr
      exact ⟨h1, h2.trans (by simp), h3⟩
  | byName now name type wires =>
      obtain ⟨h1, h2, h3⟩ := @old_makeRequest { s with nextQuery := s.nextQuery + 1 } s.nextQuery
        (if type = T_A then .reqA else .reqAaaa) type (.inet 0) (hostName domain name) now wires r
        hr
      exact ⟨h1, h2.trans (by simp), h3⟩
  | cancel query =>
      simp only [act]
      split
      · refine ⟨rfl, ?_, hr⟩
        simp only [deleteResolverQueries, List.mem_filter, Bool.not_eq_true']
        refine and_congr_right fun _ => ⟨fun hf q hq he => ?_, fun hall => ?_⟩
        · obtain rfl := QueryAction.cancel.inj he
          rw [hq] at hf
          cases hf
        · by_contra hf
          exact hall query (by simpa using hf) rfl
      · rename_i hlt
        refine ⟨rfl, ⟨fun hm => ⟨hm, fun q hq he => hlt ?_⟩, And.left⟩, hr⟩
        obtain ⟨q', hlt', hq'⟩ := h.known r hm
        rwa [QueryAction.cancel.inj he, isFor_unique hq hq']

/-- What the actions of a callback do to an old request. -/
theorem old_foldl_act {actions : List QueryAction} {busy : Option ℕ} (h : Inv busy s) {r : ℕ}
    (hr : r < s.nextRequest) :
    (actions.foldl (Resolver.act domain) s).requests r = s.requests r ∧
      (r ∈ (actions.foldl (Resolver.act domain) s).requestList ↔ r ∈ s.requestList ∧
        ∀ query, s.isFor query r = true → .cancel query ∉ actions) ∧
      r < (actions.foldl (Resolver.act domain) s).nextRequest := by
  induction actions generalizing s with
  | nil => exact ⟨rfl, by simp, hr⟩
  | cons a actions ih =>
      obtain ⟨h1, h2, h3⟩ := old_act domain h hr a
      obtain ⟨i1, i2, i3⟩ := ih (h.act domain) h3
      have hfor : ∀ query, (s.act domain a).isFor query r = s.isFor query r := fun query => by
        rw [isFor, h1, isFor]
      refine ⟨i1.trans h1, ?_, i3⟩
      rw [List.foldl_cons, i2, h2, and_assoc]
      refine and_congr_right fun _ => ⟨fun ⟨hall, hrest⟩ query hq => ?_, fun hall => ⟨?_, ?_⟩⟩
      · rw [List.mem_cons]
        rintro (he | hm)
        · exact hall query hq he.symm
        · exact hrest query (by rw [hfor, hq]) hm
      · exact fun query hq he => hall query hq (List.mem_cons.mpr (Or.inl he.symm))
      · exact fun query hq hm => hall query (by rwa [hfor] at hq) (List.mem_cons_of_mem a hm)

theorem mem_cancelled {query other : ℕ} :
    other ∈ cancelled react query ↔ .cancel other ∈ react query ∧ other ≠ query := by
  unfold cancelled
  rw [List.mem_filterMap]
  constructor
  · rintro ⟨a, ha, hsome⟩
    cases a with
    | byAddr now addr wires => cases hsome
    | byName now name type wires => cases hsome
    | cancel q =>
        dsimp only at hsome
        split at hsome
        · cases hsome
        · rename_i hne
          obtain rfl := Option.some.inj hsome
          exact ⟨ha, hne⟩
  · rintro ⟨hmem, hne⟩
    exact ⟨_, hmem, if_neg hne⟩

/-- What a callback does to an old request. -/
theorem old_callback (h : Inv none s) {query r x : ℕ} (hr : r ∈ s.requestList)
    (hfor : s.isFor query r = true) (hx : x < s.nextRequest) :
    (s.callback domain react query).requests x = s.requests x ∧
      (x ∈ (s.callback domain react query).requestList ↔ x ∈ s.requestList ∧
        ∀ other, s.isFor other x = true → other ∉ cancelled react query) ∧
      x < (s.callback domain react query).nextRequest := by
  obtain ⟨h1, h2, h3⟩ := old_foldl_act domain (h.called hr hfor) hx
  refine ⟨h1, h2.trans (and_congr_right fun _ => forall_congr' fun other => imp_congr_right
    fun _ => not_congr ?_), h3⟩
  rw [mem_cancelled, List.mem_filter]
  simp

theorem self_callback (h : Inv none s) {query r : ℕ} (hr : r ∈ s.requestList)
    (hfor : s.isFor query r = true) : r ∈ (s.callback domain react query).requestList ∧
      (s.callback domain react query).isFor query r = true := by
  obtain ⟨h1, h2, -⟩ := old_callback domain react h hr hfor (h.lt_nextRequest hr)
  refine ⟨h2.mpr ⟨hr, fun other hother hmem => ?_⟩, by rw [isFor, h1]; exact hfor⟩
  exact ((mem_cancelled react).mp hmem).2 (isFor_unique hother hfor)

theorem Inv.finish (h : Inv none s) {query r : ℕ} (hr : r ∈ s.requestList)
    (hfor : s.isFor query r = true) : Inv none (s.finish domain react r query) := by
  obtain ⟨hmem, hself⟩ := self_callback domain react h hr hfor
  exact ((h.called hr hfor).foldl_act domain).remRequest hmem hself

theorem old_finish (h : Inv none s) {query r x : ℕ} (hr : r ∈ s.requestList)
    (hfor : s.isFor query r = true) (hx : x < s.nextRequest) (hne : x ≠ r) :
    (s.finish domain react r query).requests x = s.requests x ∧
      (x ∈ (s.finish domain react r query).requestList ↔ x ∈ s.requestList ∧
        ∀ other, s.isFor other x = true → other ∉ cancelled react query) ∧
      x < (s.finish domain react r query).nextRequest := by
  obtain ⟨h1, h2, h3⟩ := old_callback domain react h hr hfor hx
  obtain ⟨hmem, -⟩ := self_callback domain react h hr hfor
  refine ⟨h1, ?_, h3⟩
  have hlist : (s.finish domain react r query).requestList =
      (s.callback domain react query).requestList.erase r := if_pos hmem
  rw [hlist, List.mem_erase_of_ne hne, h2]

end Callback

section Reply

variable {s : Resolver} (domain : Str) (react : ℕ → List QueryAction) (wires : Wires) (now : ℤ)

theorem isFor_of_requests {r : ℕ} {request : Request} (h : s.requests r = some request) :
    s.isFor request.query r = true := isFor_eq_true.mpr ⟨request, h, rfl⟩

theorem procAnswer_query (names : NameReader) (p : Packet) (request : Request)
    (qdcount ancount : ℕ) : (procAnswer names p request qdcount ancount).request.query =
      request.query := by
  have hloop : ∀ ancount current request,
      (answerLoop names p ancount current request).request.query = request.query := by
    intro ancount
    induction ancount with
    | zero => exact fun _ _ => rfl
    | succ ancount ih =>
        intro current request
        unfold answerLoop
        split
        · split
          · rfl
          · rfl
          · dsimp only
            split_ifs
            all_goals first
              | rfl
              | exact ih _ _
              | (split <;> rfl)
        · rfl
  exact hloop _ _ _

theorem Inv.replyError (h : Inv none s) (p : Packet) {r : ℕ} {request : Request}
    (hr : r ∈ s.requestList) (hreq : s.requests r = some request) :
    Inv none (s.replyError domain react wires p r request) := by
  have hfinish := h.finish domain react hr (isFor_of_requests hreq)
  have hresend : ∀ f : Request → Request, (∀ x, (f x).query = x.query) →
      Inv none ((s.updRequest r f).resendQuery wires r) := fun f hf =>
    h.of_sameQueries ((SameQueries.updRequest s r fun x _ => hf x).trans
      (SameQueries.resendQuery _ wires r))
  unfold Resolver.replyError
  split
  · split
    · exact hresend _ fun _ => rfl
    · split
      · split
        · exact hresend _ fun _ => rfl
        · exact hfinish
      · exact hfinish
  · exact hfinish

theorem Inv.removed (h : Inv none s) {r : ℕ} {request : Request} (hr : r ∈ s.requestList)
    (hreq : s.requests r = some request) : Inv none (s.remRequest r) := by
  have hbusy : Inv (some request.query) s := { h with done := fun q hq _ => h.done q hq (by simp) }
  exact hbusy.remRequest hr (isFor_of_requests hreq)

/-- The next lookup for a query takes the place of its request. -/
theorem Inv.nextLookup (h : Inv none s) {r : ℕ} {request : Request} (hr : r ∈ s.requestList)
    (hreq : s.requests r = some request) (name : Str) (type : ℕ) :
    Inv none ((s.gethostByNameType domain now wires request.query name type).remRequest r) := by
  have hfor := isFor_of_requests hreq
  have hend : ¬ Ended s.log request.query := fun he => by
    rw [h.done _ he (by simp) r hr] at hfor
    cases hfor
  have hlt : request.query < s.nextQuery := by
    obtain ⟨q, hlt, hq⟩ := h.known r hr
    rwa [isFor_unique hfor hq]
  have hne : s.nextRequest ≠ r := (Nat.ne_of_lt (h.lt_nextRequest hr)).symm
  have hrem : Inv none (s.remRequest r) := h.removed hr hreq
  have hnone : ∀ r' ∈ (s.remRequest r).requestList,
      (s.remRequest r).isFor request.query r' = false := by
    intro r' hr'
    have hlist : (s.remRequest r).requestList = s.requestList.erase r := if_pos hr
    rw [hlist, h.nodup.mem_erase_iff] at hr'
    by_contra hne'
    exact hr'.1 (h.one _ r' hr'.2 r hr (Bool.not_eq_false _ ▸ hne') hfor)
  have hcomm : (s.gethostByNameType domain now wires request.query name type).remRequest r =
      (s.remRequest r).gethostByNameType domain now wires request.query name type := by
    have herase : (s.nextRequest :: s.requestList).erase r =
        s.nextRequest :: s.requestList.erase r := List.erase_cons_tail (by simpa using hne)
    unfold Resolver.gethostByNameType Resolver.queryName
    simp only [Resolver.makeRequest, Resolver.remRequest, Resolver.updRequest]
    cases wires s.nextRequest with
    | none => simp [hr, herase]
    | some x => simp [hr, herase]
  rw [hcomm]
  exact (hrem.makeRequest now hlt hnone hend _ _ _ _).of_sameQueries
    (SameQueries.queryName _ wires _)

theorem Inv.replyAnswer (h : Inv none s) {r : ℕ} {request : Request} (ret : Bool)
    (hr : r ∈ s.requestList) (hreq : s.requests r = some request) :
    Inv none (s.replyAnswer domain react wires now r ret request) := by
  unfold Resolver.replyAnswer
  split
  · split
    · exact h.nextLookup domain wires now hr hreq _ _
    · exact h.finish domain react hr (isFor_of_requests hreq)
  · split
    · exact h.removed hr hreq
    · exact h

theorem Inv.resReadreply (h : Inv none s) (ours : Bool) (names : NameReader) (p : Packet) :
    Inv none (s.resReadreply domain react wires now ours names p) := by
  unfold Resolver.resReadreply
  split
  · exact h
  · split
    · exact h
    · rename_i r hid
      have hr : r ∈ s.requestList := List.mem_of_find?_eq_some hid
      split
      · exact h
      · rename_i request hreq
        split
        · exact h
        · split
          · exact h.replyError domain react wires p hr hreq
          · dsimp only
            have hsame := SameQueries.updRequest s r
              (f := fun _ => (procAnswer names p request (p.get16 4) (p.get16 6)).request)
              fun x hx => by rw [procAnswer_query, Option.some.inj (hreq.symm.trans hx)]
            refine (h.of_sameQueries hsame).replyAnswer domain react wires now _
              (hsame.list ▸ hr) ?_
            simp [Resolver.updRequest, hreq]

end Reply

section Timeout

variable {s : Resolver} (domain : Str) (react : ℕ → List QueryAction) (wires : Wires) (now : ℤ)

/-- No callback deletes the request that stands next in the list. -/
abbrev Undisturbed : List Request → List ℕ → Prop :=
  SafeLoop.Undisturbed Request.query (expires now) fun request => cancelled react request.query

theorem requests_queryName_ne {r x : ℕ} (hx : x ≠ r) :
    (s.queryName wires r).requests x = s.requests x := by
  unfold queryName
  split
  · rfl
  · exact Function.update_of_ne hx _ _

theorem requests_resendQuery_ne {r x : ℕ} (hx : x ≠ r) :
    (s.resendQuery wires r).requests x = s.requests x := by
  have hdo : ∀ type, (s.doQueryName wires r type).requests x = s.requests x := fun type =>
    (requests_queryName_ne wires hx).trans (Function.update_of_ne hx _ _)
  unfold resendQuery
  split
  · rfl
  · split_ifs
    · rfl
    · exact requests_queryName_ne wires hx
    · exact hdo _
    · exact hdo _
    · rfl

/-- What the body of the loop does: the request stays, or it is finished. -/
theorem timeoutRequest_cases {r : ℕ} {request : Request} (hreq : s.requests r = some request) :
    (expires now request = false ∧ SameQueries s (timeoutRequest domain react wires now s r) ∧
      ∀ x, x ≠ r → (timeoutRequest domain react wires now s r).requests x = s.requests x) ∨
    (expires now request = true ∧ ∃ s₁, SameQueries s s₁ ∧
      (∀ x, x ≠ r → s₁.requests x = s.requests x) ∧
      timeoutRequest domain react wires now s r = s₁.finish domain react r request.query) := by
  unfold timeoutRequest
  rw [hreq]
  dsimp only
  have hretries : SameQueries s
      (s.updRequest r fun request => { request with retries := request.retries - 1 }) :=
    SameQueries.updRequest s r fun _ _ => rfl
  split
  · rename_i hdue
    split
    · rename_i hlast
      exact Or.inr ⟨by simp [expires, hdue, hlast], _, hretries,
        fun x hx => Function.update_of_ne hx _ _, rfl⟩
    · rename_i hlast
      have hagain : SameQueries
          (s.updRequest r fun request => { request with retries := request.retries - 1 }) _ :=
        SameQueries.updRequest _ r (f := fun request =>
          { request with sentat := now, timeout := request.timeout + request.timeout })
          fun _ _ => rfl
      refine Or.inl ⟨?_, (hretries.trans hagain).trans (SameQueries.resendQuery _ wires r),
        fun x hx => ?_⟩
      · rw [expires, decide_eq_false hlast, Bool.and_false]
      · rw [requests_resendQuery_ne wires hx]
        exact (Function.update_of_ne hx _ _).trans (Function.update_of_ne hx _ _)
  · rename_i hdue
    refine Or.inl ⟨?_, SameQueries.refl s, fun _ _ => rfl⟩
    rw [expires, decide_eq_false hdue, Bool.false_and]

theorem Inv.removal (h : Inv none s) {r : ℕ} {request : Request} (hr : linked s r = true)
    (hreq : s.requests r = some request) :
    SafeLoop.Removal linked Request.query (expires now)
      (fun request => cancelled react request.query) Resolver.requests
      (fun s r => r < s.nextRequest) (Inv none) r request s
      (timeoutRequest domain react wires now s r) := by
  have hmem : r ∈ s.requestList := of_decide_eq_true hr
  obtain ⟨hstays, hsame, hothers⟩ | ⟨hends, s₁, hsame, hothers, hfinish⟩ :=
    timeoutRequest_cases domain react wires now hreq
  · refine ⟨h.of_sameQueries hsame, fun y _ hy => by rwa [hsame.nextRequest],
      fun y hy _ => hothers y hy, fun y _ _ _ _ => ?_⟩
    rw [hstays, linked, hsame.list]
    simp [linked]
  · have hx₁ : r ∈ s₁.requestList := hsame.list ▸ hmem
    have hfor₁ : s₁.isFor request.query r = true := by
      rw [hsame.isFor]
      exact isFor_of_requests hreq
    have hs₁ := h.of_sameQueries hsame
    have hafter := fun y (hy : y ≠ r) (hold : y < s.nextRequest) =>
      old_finish domain react hs₁ hx₁ hfor₁ (hsame.nextRequest ▸ hold) hy
    rw [hfinish]
    refine ⟨hs₁.finish domain react hx₁ hfor₁, fun y hy hold => (hafter y hy hold).2.2,
      fun y hy hold => (hafter y hy hold).1.trans (hothers y hy), fun y hy hold req hreq => ?_⟩
    rw [linked, linked, decide_eq_true_iff, decide_eq_true_iff, (hafter y hy hold).2.1, hsame.list,
      hends]
    refine and_congr_right fun _ => ⟨fun hall _ => ?_, fun hno other hother => ?_⟩
    · exact hall _ (by rw [hsame.isFor]; exact isFor_of_requests hreq)
    · rw [hsame.isFor] at hother
      rw [isFor_unique hother (isFor_of_requests hreq)]
      exact hno rfl

theorem map_requests_eq (h : Inv none s) {l : List ℕ} (hl : ∀ r ∈ l, r ∈ s.requestList) :
    l.map s.requests = (l.filterMap s.requests).map some := by
  induction l with
  | nil => rfl
  | cons r l ih =>
      obtain ⟨query, -, hfor⟩ := h.known r (hl r List.mem_cons_self)
      obtain ⟨request, hreq, -⟩ := isFor_eq_true.mp hfor
      rw [List.map_cons, List.filterMap_cons_some hreq, List.map_cons, hreq,
        ih fun x hx => hl x (List.mem_cons_of_mem r hx)]

theorem Inv.timeoutQueryList (h : Inv none s)
    (hcond : Undisturbed react now (s.requestList.filterMap s.requests) []) :
    Inv none (s.timeoutQueryList domain react wires now) :=
  SafeLoop.invariant_of_undisturbed
    (fun _ _ _ hs hr hreq => hs.removal domain react wires now hr hreq) h h.nodup
    (fun _ hr => h.lt_nextRequest hr) (fun _ hr => decide_eq_true hr)
    (map_requests_eq h fun _ hr => hr) hcond

end Timeout

/-- No callback made by `timeout_query_list` deletes the request that this loop goes to next. -/
def Allowed (s : Resolver) : ResolverEvent → Prop
  | .timeout react _ now => Undisturbed react now (s.requestList.filterMap s.requests) []
  | _ => True

theorem Inv.step {s : Resolver} (h : Inv none s) (domain : Str) {e : ResolverEvent}
    (he : s.Allowed e) : Inv none (s.step domain e) := by
  cases e with
  | action a => exact h.act domain
  | reply react wires now ours names p => exact h.resReadreply domain react wires now ours names p
  | timeout react wires now => exact h.timeoutQueryList domain react wires now he

/-- A query has one request at most and none once its callback was called, and a callback is called
at most once and not after the requests of its query were deleted. -/
structure AnsweredOnce (s : Resolver) : Prop where
  one : ∀ query, (s.requestList.filter (s.isFor query)).length ≤ 1
  order : InOrder s.log
  done : ∀ query, .called query ∈ s.log → s.requestList.filter (s.isFor query) = []

theorem Inv.answeredOnce {s : Resolver} (h : Inv none s) : s.AnsweredOnce := by
  refine ⟨fun query => ?_, h.order, fun query hq => ?_⟩
  · have hnodup := h.nodup.filter (s.isFor query)
    have hone : ∀ r ∈ s.requestList.filter (s.isFor query),
        ∀ r' ∈ s.requestList.filter (s.isFor query), r = r' := fun r hr r' hr' =>
      h.one query r (List.mem_of_mem_filter hr) r' (List.mem_of_mem_filter hr')
        (List.of_mem_filter hr) (List.of_mem_filter hr')
    generalize s.requestList.filter (s.isFor query) = l at hnodup hone ⊢
    match l with
    | [] => exact Nat.zero_le 1
    | [_] => exact Nat.le_refl 1
    | a :: b :: l =>
        refine absurd (hone a (by simp) b (by simp)) fun he => ?_
        simp [he] at hnodup
  · rw [List.filter_eq_nil_iff]
    intro r hr
    rw [h.done query (Or.inl hq) (by simp) r hr]
    simp

/-- In a run without such a callback, every query is answered at most once. -/
theorem answeredOnce_run (domain : Str) (es : List ResolverEvent)
    (h : Runs.Each (step domain) Allowed init es) :
    (es.foldl (step domain) init).AnsweredOnce :=
  (Runs.invariant (fun _ _ hs he => hs.step domain he) Inv.init h).answeredOnce

/-- A lookup of a host at the time 0. -/
def lookupEvent : ResolverEvent := .action (.byName 0 "a.b".toList T_A fun _ => some (7, 1))

theorem answeredOnce_lookup : ([lookupEvent, .timeout (fun _ => []) (fun _ => none) 100].foldl
    (step []) init).AnsweredOnce := by
  refine answeredOnce_run [] _ ⟨trivial, ?_, trivial⟩
  change Undisturbed _ _ [_] []
  rw [Undisturbed, SafeLoop.Undisturbed, if_neg List.not_mem_nil, if_neg (by decide)]
  trivial

/-- The callback of the query 1 deletes the query 0, which has timed out as well and stands next in
the list: its callback is called all the same. -/
theorem not_answeredOnce_run : ¬ ∀ (domain : Str) (es : List ResolverEvent),
    (es.foldl (step domain) init).AnsweredOnce := by
  intro h
  have horder := (h [] [lookupEvent, lookupEvent, .timeout (fun _ => []) (fun _ => none) 4,
    .timeout (fun _ => []) (fun _ => none) 12,
    .timeout (fun query => if query = 1 then [.cancel 0] else []) (fun _ => none) 28]).order
  have hlog : (([lookupEvent, lookupEvent, .timeout (fun _ => []) (fun _ => none) 4,
      .timeout (fun _ => []) (fun _ => none) 12,
      .timeout (fun query => if query = 1 then [.cancel 0] else []) (fun _ => none) 28].foldl
      (step []) init).log) = [.called 1, .deleted 0, .called 0] := by decide
  rw [hlog] at horder
  exact absurd (List.pairwise_cons.mp (List.pairwise_cons.mp horder).2).1
    fun hpair => hpair _ (List.mem_singleton_self _) 0 (Or.inr rfl) rfl

end Resolver

end Dns

end Unirc
