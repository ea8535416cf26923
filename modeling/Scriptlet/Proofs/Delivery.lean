/-
Calls to a scanner. One machine is called again and again, in any order: to take up a source, which may break off, to
hand out the next item, or to take up a source and hand out all of its items. Whatever came before, what it hands out
since the last source was taken up are the items of the bytes that arrived of that source, from the first one on and in
order; behind the end mark there is nothing until another source is taken up.

A call leaves the machine as it leaves the token stream over its bytes (`Lexicon.runs_answer`), so that it is enough to
look at streams. There, the items handed out and those still to come are together the items of the source
(`Delivery.Accounts`): each call keeps this up, and so does every sequence of calls.

- `Lexicon.calls_deliver`: what is handed out in the course of any calls.
-/
import Scriptlet.Proofs.ByteCursorSteps
import Scriptlet.Proofs.Joining
import Scriptlet.Workbench

namespace Scriptlet

inductive StreamCall where
  | load (source : Source)
  | next
  | scan (source : Source)

inductive StreamAnswer where
  | loaded
  | unreadable
  | item (item : Option Item)
  | scanned (items : List Item)

def itemsOf (content : Bytes) : List Item := (TokenStream.load (.ofBytes content)).drain.1

/-! ## Calls -/

namespace Lexicon

open ByteCursor

def answer (m : Lexicon) : StreamCall → ByteSteps StreamAnswer
  | .load source => do
    match ← load source with
    | .ok () => return .loaded
    | .error _ => return .unreadable
  | .next => return .item (← m.next)
  | .scan source => do
    match ← m.scan source with
    | .ok items => return .scanned items
    | .error _ => return .unreadable

/-- a call together with its answer -/
def exchange (m : Lexicon) (call : StreamCall) : ByteSteps (StreamCall × StreamAnswer) := return (call, ← m.answer call)

end Lexicon

namespace TokenStream

/-- the answer of a stream, and the stream after it -/
def answer (s : TokenStream) : StreamCall → StreamAnswer × TokenStream
  | .load source => (if source.broken then .unreadable else .loaded, s.reload source)
  | .next => (.item (s.next.map Prod.fst), (s.next.map Prod.snd).getD s)
  | .scan source =>
    if source.broken then (.unreadable, s.reload source)
    else (.scanned (s.reload source).drain.1, (s.reload source).drain.2)

def answers (s : TokenStream) : List StreamCall → List (StreamCall × StreamAnswer) × TokenStream
  | [] => ([], s)
  | call :: calls =>
    let later := (s.answer call).2.answers calls
    ((call, (s.answer call).1) :: later.1, later.2)

end TokenStream

namespace Lexicon

open ByteCursor

theorem runs_scan (source : Source) (c : ByteCursor) : ∃ c',
    Runs (standard.scan source) c
      (if source.broken then .error .unreadable else .ok (TokenStream.load source).drain.1) c' ∧
    c'.stream = if source.broken then .load source else (TokenStream.load source).drain.2 := by
  obtain ⟨c', hcollect, hstream⟩ := runs_collect (.load source) (loaded source) [] (stream_loaded source)
  have hload := runs_load source c
  cases hbroken : source.broken with
  | true =>
    rw [hbroken] at hload
    exact ⟨loaded source, hload.bind (runs_pure _ _), stream_loaded source⟩
  | false =>
    rw [hbroken] at hload
    exact ⟨c', hload.bind (hcollect.bind (runs_pure _ _)), hstream⟩

/-- the machine answers every call as a stream over its bytes does, and stays the machine of that stream -/
theorem runs_answer (c : ByteCursor) (call : StreamCall) : ∃ c',
    Runs (standard.answer call) c (c.stream.answer call).1 c' ∧ c'.stream = (c.stream.answer call).2 := by
  cases call with
  | load source =>
    refine ⟨loaded source, (runs_load source c).bind ?_, stream_loaded source⟩
    simp only [TokenStream.answer]
    cases source.broken <;> exact runs_pure _ _
  | next =>
    obtain ⟨c', hnext, hstream⟩ := runs_next c
    exact ⟨c', hnext.bind (runs_pure _ _), hstream⟩
  | scan source =>
    obtain ⟨c', hscan, hstream⟩ := runs_scan source c
    refine ⟨c', hscan.bind ?_, ?_⟩
    · simp only [TokenStream.answer]
      cases source.broken <;> exact runs_pure _ _
    · rw [hstream]
      simp only [TokenStream.answer]
      cases source.broken <;> rfl

theorem runs_exchanges (calls : List StreamCall) (c : ByteCursor) : ∃ c',
    Runs (calls.mapM standard.exchange) c (c.stream.answers calls).1 c' ∧ c'.stream = (c.stream.answers calls).2 := by
  induction calls generalizing c with
  | nil => exact ⟨c, runs_pure _ c, rfl⟩
  | cons call calls ih =>
    obtain ⟨c', hcall, hstream⟩ := runs_answer c call
    obtain ⟨c'', hlater, hstream'⟩ := ih c'
    rw [hstream] at hlater hstream'
    have hexchange : Runs (standard.exchange call) c (call, (c.stream.answer call).1) c' := hcall.bind (runs_pure _ _)
    refine ⟨c'', ?_, hstream'⟩
    rw [List.mapM_cons]
    exact hexchange.bind (hlater.bind (runs_pure _ _))

end Lexicon

/-! ## Items of a source -/

namespace TokenStream

theorem drain_of_none {s : TokenStream} (h : s.next = none) : s.drain = ([], s) := by
  rw [drain]
  split
  · rfl
  · rename_i hsome
    cases h.symm.trans hsome

/-- nothing is left when all items have been handed out -/
theorem drain_drained (s : TokenStream) : s.drain.2.drain.1 = [] := by
  fun_induction drain s with
  | case1 s hnone => rw [drain_of_none hnone]
  | case2 s item t hnext later ih => exact ih

/-- the next item is the first of those to come -/
theorem next_eq_head? (s : TokenStream) : s.next.map Prod.fst = s.drain.1.head? := by
  cases hnext : s.next with
  | none => rw [drain_of_none hnext]; rfl
  | some step => rw [drain_of_next hnext]; rfl

end TokenStream

/-- the end mark comes last, and once -/
theorem Division.items_end {source : Bytes} {cuts : List (Bytes × Piece)} (h : Division source cuts) (line : Nat) :
    ∃ front line', itemsFrom line cuts = front ++ [.token (.atEnd line')] ∧ ∀ t, .token t ∈ front → t.kind ≠ .eof := by
  induction h generalizing line with
  | nil => exact ⟨[], line, rfl, nofun⟩
  | @cons text rest piece later hne hdue h ih =>
    obtain ⟨front, line', hlater, hfront⟩ := ih (line + Bytes.lineFeeds text)
    have hother : ∀ d, ∀ t, .token t ∈ Item.diagnostic d :: front → t.kind ≠ .eof := by
      intro d t ht
      exact hfront t (by simpa using ht)
    rcases piece with - | kind | (- | -)
    · exact ⟨front, line', hlater, hfront⟩
    · refine ⟨_ :: front, line', congrArg (List.cons _) hlater, ?_⟩
      intro t ht
      rcases List.mem_cons.1 ht with hfirst | hbehind
      · cases hfirst
        exact fun hkind => hdue.ne_end (congrArg Piece.token hkind)
      · exact hfront t hbehind
    · exact ⟨_ :: front, line', congrArg (List.cons _) hlater, hother _⟩
    · exact ⟨_ :: front, line', congrArg (List.cons _) hlater, hother _⟩

theorem itemsOf_end (content : Bytes) : ∃ front line,
    itemsOf content = front ++ [.token (.atEnd line)] ∧ ∀ t, .token t ∈ front → t.kind ≠ .eof := by
  obtain ⟨cuts, hcuts⟩ := division_exists content
  obtain ⟨front, line, hitems, hfront⟩ := hcuts.items_end 1
  have hdrain : itemsOf content = itemsFrom 1 cuts := TokenStream.drain_eq hcuts 1
  exact ⟨front, line, hdrain.trans hitems, hfront⟩

/-! ## Deliveries -/

/-- what has been delivered in the course of calls -/
structure Delivery where
  /-- the bytes that arrived when a source was last taken up -/
  bytes : Bytes
  /-- the items handed out since then -/
  handed : List Item

namespace Delivery

def after (d : Delivery) : StreamCall × StreamAnswer → Delivery
  | (.load source, _) => ⟨source.content, []⟩
  | (.scan source, .scanned items) => ⟨source.content, items⟩
  | (.scan source, _) => ⟨source.content, []⟩
  | (.next, .item (some item)) => ⟨d.bytes, d.handed ++ [item]⟩
  | (.next, _) => d

def ofHistory (history : List (StreamCall × StreamAnswer)) : Delivery := history.foldl after ⟨[], []⟩

/-- what was handed out and what the stream has still to hand out are the items of the source -/
def Accounts (d : Delivery) (s : TokenStream) : Prop := d.handed ++ s.drain.1 = itemsOf d.bytes

/-- a call is accounted for -/
theorem Accounts.answer {d : Delivery} {s : TokenStream} (h : d.Accounts s) (call : StreamCall) :
    (d.after (call, (s.answer call).1)).Accounts (s.answer call).2 := by
  cases call with
  | load source => rfl
  | next =>
    cases hnext : s.next with
    | none => simpa [TokenStream.answer, hnext, after] using h
    | some step =>
      obtain ⟨item, t⟩ := step
      unfold Accounts at h
      rw [TokenStream.drain_of_next hnext] at h
      simpa [TokenStream.answer, hnext, after, Accounts] using h
  | scan source =>
    simp only [TokenStream.answer]
    cases source.broken with
    | true => rfl
    | false =>
      show (s.reload source).drain.1 ++ (s.reload source).drain.2.drain.1 = itemsOf source.content
      rw [TokenStream.drain_drained, List.append_nil]
      rfl

/-- all calls are accounted for -/
theorem Accounts.answers {d : Delivery} {s : TokenStream} (h : d.Accounts s) (calls : List StreamCall) :
    ((s.answers calls).1.foldl after d).Accounts (s.answers calls).2 := by
  induction calls generalizing d s with
  | nil => exact h
  | cons call calls ih => exact ih (h.answer call)

theorem accounts_fresh : (ofHistory []).Accounts .fresh := rfl

variable {d : Delivery} {s : TokenStream}

/-- the next item is the one behind those handed out -/
theorem Accounts.next (h : d.Accounts s) : s.next.map Prod.fst = (itemsOf d.bytes)[d.handed.length]? := by
  rw [TokenStream.next_eq_head?, ← h, List.getElem?_append_right (Nat.le_refl _), Nat.sub_self, List.head?_eq_getElem?]

/-- with the end mark, everything has been handed out -/
theorem Accounts.next_of_ended (h : d.Accounts s) (hended : ∃ t, .token t ∈ d.handed ∧ t.kind = .eof) :
    (itemsOf d.bytes)[d.handed.length]? = none := by
  obtain ⟨t, hmem, hkind⟩ := hended
  obtain ⟨front, line, hitems, hfront⟩ := itemsOf_end d.bytes
  have hsplit : d.handed ++ s.drain.1 = front ++ [.token (.atEnd line)] := h.trans hitems
  -- were something still to come, what was handed out would be a part of what stands before the end mark
  rcases List.eq_nil_or_concat s.drain.1 with hnil | ⟨later, last, hlater⟩
  · rw [← h, hnil, List.append_nil]
    exact List.getElem?_eq_none (Nat.le_refl _)
  · rw [hlater, List.concat_eq_append, ← List.append_assoc] at hsplit
    have hbefore : d.handed ++ later = front := (List.append_inj' hsplit rfl).1
    exact absurd hkind (hfront t (hbefore ▸ List.mem_append_left later hmem))

end Delivery

namespace Lexicon

open ByteCursor

/-- **What calls deliver.** A new machine answers every sequence of calls, as a stream does. Afterwards, with the bytes
that arrived when a source was last taken up and with what has been handed out since:

- another new machine that scans these bytes hands out `items`, of which the last is the end mark and no other is;
- what has been handed out are the first of `items`, and the next call hands out the one behind them;
- once the end mark has been handed out, the next call hands out nothing. As this is said of every sequence of calls, it
  is so until a source is taken up. -/
theorem calls_deliver (calls : List StreamCall) : ∃ history last,
    Runs (calls.mapM standard.exchange) new history last ∧ history = (TokenStream.fresh.answers calls).1 ∧
    let d := Delivery.ofHistory history
    ∃ items, (∃ c, Runs (standard.scan (.ofBytes d.bytes)) new (.ok items) c) ∧
      (∃ front line, items = front ++ [.token (.atEnd line)] ∧ ∀ t, .token t ∈ front → t.kind ≠ .eof) ∧
      d.handed <+: items ∧
      (∃ c, Runs standard.next last items[d.handed.length]? c) ∧
      ((∃ t, .token t ∈ d.handed ∧ t.kind = .eof) → ∃ c, Runs standard.next last none c) := by
  obtain ⟨last, hcalls, hstream⟩ := runs_exchanges calls new
  refine ⟨(TokenStream.fresh.answers calls).1, last, hcalls, rfl, ?_⟩
  intro d
  have haccounts : d.Accounts last.stream := hstream ▸ Delivery.accounts_fresh.answers calls
  obtain ⟨c, hscan, -⟩ := runs_scan (.ofBytes d.bytes) new
  obtain ⟨c', hnext, -⟩ := runs_next last
  have hbehind : Runs standard.next last (itemsOf d.bytes)[d.handed.length]? c' := by
    rw [← haccounts.next]
    exact hnext
  refine ⟨itemsOf d.bytes, ⟨c, hscan⟩, itemsOf_end d.bytes, ⟨_, haccounts⟩, ⟨c', hbehind⟩, ?_⟩
  intro hended
  rw [haccounts.next_of_ended hended] at hbehind
  exact ⟨c', hbehind⟩

end Lexicon

end Scriptlet
