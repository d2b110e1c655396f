import Hcpp.Http.HeaderFields
import Hcpp.Http.HeaderTable
import Hcpp.Lib.Reorder
import Hcpp.Server.AcceptHead

/-!
# The head `http_do` writes upstream

The header lines of a request go through the table of its entries, which keeps
one entry for a name and none of the lines skipped behind it, and come out in
the order of the hash table; `Host` is written anew, without the port.
-/

namespace Hcpp

open Memory

/-- What is left of the table when `Proxy-Connection` and `Host` are erased. -/
def keptKey (k : List Char) : Bool :=
  decide (k ≠ "proxy-connection".toList) && decide (k ≠ "host".toList)

/-- Host, and the port when it is not 80. -/
def authority (host port : List Char) : List Char :=
  if port = "80".toList then host else host ++ ':' :: port

/-- The entries of the client's head that are sent on. -/
def RequestHead.kept (client : RequestHead) : List Entry :=
  ((entries client.lines).getD []).filter fun e => keptKey e.key

/-- The upstream head says what the client's does. -/
structure Preserves (client up : RequestHead) (host port : List Char) : Prop where
  method : up.line.method = client.line.method
  target : up.line.target = client.line.path
  version : up.line.version = client.line.version
  fields : ∀ name, name ≠ "host".toList → name ≠ "proxy-connection".toList →
    fieldsNamed up.lines name = fieldsNamed client.lines name
  host : (fieldsNamed up.lines "host".toList).map Field.value = [' ' :: authority host port]

/-- What must hold of the client's head for that. -/
structure Clean (client : RequestHead) (port : List Char) : Prop where
  port : port = "80".toList
  folds : ∀ e ∈ client.kept, e.folds = []
  keys : (client.kept.map Entry.key).Nodup
  begins : ∀ e ∈ client.kept, BeginsField e.lines
  names : ∀ name, client.kept.Pairwise
    (Reorder.Apart (fun e => fieldsOf e.lines) fun f => f.name = name)
  noHost : ∀ e ∈ client.kept, ∀ f ∈ fieldsOf e.lines, f.name ≠ "host".toList

/-! ## The head that is written -/

theorem erase_map_pair (t : List Entry) (k : List Char) :
    Headers.erase (t.map Entry.pair) k = (t.filter fun e => e.key ≠ k).map Entry.pair := by
  unfold Headers.erase
  rw [List.filter_map]
  rfl

/-- What is written of the table: the kept entries, in some order. -/
theorem exists_kept_order (o : HashOrder) (es : List Entry) :
    ∃ ks : List Entry, ks.Perm ((Entry.table es).filter fun e => keptKey e.key) ∧
      (o.order ((Headers.erase (storeEntries [] es) "proxy-connection".toList).erase
        "host".toList)).flatMap Prod.snd = linesText (ks.flatMap Entry.lines) := by
  rw [Entry.storeEntries_eq, erase_map_pair, erase_map_pair, List.filter_filter]
  have hfilter : (Entry.table es).filter (fun e => decide (e.key ≠ "host".toList) &&
      decide (e.key ≠ "proxy-connection".toList)) =
        (Entry.table es).filter fun e => keptKey e.key := by
    congr 1
    ext e
    exact Bool.and_comm _ _
  rw [hfilter]
  obtain ⟨ks, hks, heq⟩ := Reorder.exists_perm_map (o.perm _) _ rfl
  refine ⟨ks, hks, ?_⟩
  rw [heq, List.flatMap_map]
  unfold linesText
  rw [List.flatMap_assoc]
  rfl

/-- `"Host: " + req.host_` -/
def hostLine (host : List Char) (h : ¬ crlf <:+: host) : HeaderLine where
  text := "Host: ".toList ++ host
  ne := by simp
  noCrlf := Search.not_infix_append (by decide) h

/-- The head that goes upstream, of a request that is sent to `host`. -/
structure SendsHead (o : HashOrder) (req : HttpRequest) (client up : RequestHead) : Prop where
  text : reqLine o req = up.encode
  method : up.line.method = client.line.method
  target : up.line.target = client.line.path
  version : up.line.version = client.line.version
  lines : ∃ ks : List Entry, ks.Perm ((Entry.table ((entries client.lines).getD [])).filter
      fun e => keptKey e.key) ∧
    ∃ h : ¬ crlf <:+: req.host, up.lines = ks.flatMap Entry.lines ++ [hostLine req.host h]

/-! ## Fields of the entries -/

section Fields

variable {es : List Entry} {e : Entry}

theorem keptKey_eq_false {k : List Char} :
    keptKey k = false ↔ k = "proxy-connection".toList ∨ k = "host".toList := by
  unfold keptKey
  rw [Bool.and_eq_false_iff, decide_eq_false_iff_not, decide_eq_false_iff_not, not_not, not_not]

/-- No letter of the two names is one that separates. -/
theorem erased_letters {k : List Char} (hk : keptKey k = false) :
    k ≠ [] ∧ '\r' ∉ k ∧ ':' ∉ k ∧ ' ' ∉ k ∧ '\t' ∉ k := by
  rcases keptKey_eq_false.mp hk with rfl | rfl <;> decide

/-- The line of an erased entry is the field of that name. -/
theorem erased_entry (he : e.Cut) (hk : keptKey e.key = false) :
    ∃ l, e.lines = [l] ∧ ¬ l.Continues ∧ toLower (l.text.takeWhile (· ≠ ':')) = e.key := by
  obtain ⟨pre, l, i, hlines, hname, hi⟩ := he.lines
  obtain ⟨hne, hcr, hcolon, hsp, htab⟩ := erased_letters hk
  have hlow : ∀ c ∈ e.name, c.toLower ∈ e.key := fun c hc => List.mem_map_of_mem hc
  have hpre : pre = [] := by
    cases pre with
    | nil => rfl
    | cons l' pre =>
      have hmem : '\r' ∈ e.name := by
        rw [hname, linesText_cons]
        simp [crlf]
      exact absurd (hlow _ hmem) hcr
  rw [hpre, linesText_nil, List.nil_append] at hname
  rw [hpre, List.nil_append] at hlines
  obtain ⟨hile, ⟨b, hb⟩, -⟩ := Search.find_eq_some_iff.mp hi
  have htext : l.text = e.name ++ ':' :: (' ' :: b) := by
    rw [hname]
    conv_lhs => rw [← List.take_append_drop i l.text, ← hb]
    rfl
  have hcut : l.text.takeWhile (· ≠ ':') = e.name := by
    rw [htext, List.takeWhile_append_of_pos, List.takeWhile_cons_of_neg (by simp), List.append_nil]
    intro c hc
    simp only [ne_eq, decide_eq_true_eq]
    rintro rfl
    exact hcolon (hlow _ hc)
  refine ⟨l, hlines, ?_, by rw [hcut]; rfl⟩
  rintro ⟨c, hc, hblank⟩
  cases hn : e.name with
  | nil =>
    apply hne
    unfold Entry.key
    rw [hn]
    rfl
  | cons d ds =>
    rw [htext, hn, List.cons_append, List.head?_cons, Option.some.injEq] at hc
    subst hc
    have hd := hlow d (by simp [hn])
    unfold isBlank at hblank
    rw [Bool.or_eq_true, decide_eq_true_eq, decide_eq_true_eq] at hblank
    rcases hblank with rfl | rfl
    · exact hsp hd
    · exact htab hd

theorem fieldsOf_folded {l : HeaderLine} (hl : ¬ l.Continues) {folds : List HeaderLine}
    (hf : ∀ f ∈ folds, f.Continues) : fieldsOf (l :: folds) = [⟨l, folds⟩] := by
  have hcut : ∀ folds : List HeaderLine, (∀ f ∈ folds, f.Continues) →
      cutFields folds = (folds, []) := by
    intro folds hf
    induction folds with
    | nil => rfl
    | cons f folds ih =>
      rw [cutFields, if_pos (hf f (by simp)), ih fun g hg => hf g (by simp [hg])]
  unfold fieldsOf
  rw [cutFields, if_neg hl, hcut folds hf]

theorem erased_fields (he : e.Cut) (hk : keptKey e.key = false) :
    BeginsField (e.lines ++ e.folds) ∧
      ∀ name, name ≠ "host".toList → name ≠ "proxy-connection".toList →
        (fieldsOf (e.lines ++ e.folds)).filter (fun f => f.name = name) = [] := by
  obtain ⟨l, hl, hc, hname⟩ := erased_entry he hk
  rw [hl, List.singleton_append]
  refine ⟨fun l' h => ?_, fun name h1 h2 => ?_⟩
  · rw [List.head?_cons, Option.some.injEq] at h
    exact h ▸ hc
  · rw [fieldsOf_folded hc fun f hf => HeaderLine.continues_of_startsSp (he.folds f hf),
      List.filter_singleton]
    have hne : Field.name ⟨l, e.folds⟩ ≠ name := by
      show toLower (l.text.takeWhile (· ≠ ':')) ≠ name
      rw [hname]
      rintro rfl
      rcases keptKey_eq_false.mp hk with h | h
      · exact h2 h
      · exact h1 h
    rw [decide_eq_false hne]
    rfl

/-- The fields of the client's head, but for those of the erased entries. -/
theorem client_fields (hcut : ∀ e ∈ es, e.Cut)
    (hfolds : ∀ e ∈ es, keptKey e.key = true → e.folds = [])
    (hbegins : ∀ e ∈ es, keptKey e.key = true → BeginsField e.lines) {name : List Char}
    (h1 : name ≠ "host".toList) (h2 : name ≠ "proxy-connection".toList) :
    (fieldsOf (es.flatMap fun e => e.lines ++ e.folds)).filter (fun f => f.name = name) =
      ((es.filter fun e => keptKey e.key).flatMap fun e => fieldsOf e.lines).filter
        fun f => f.name = name := by
  have hbegin : ∀ e ∈ es, BeginsField (e.lines ++ e.folds) := by
    intro e he
    cases hk : keptKey e.key with
    | true =>
      rw [hfolds e he hk, List.append_nil]
      exact hbegins e he hk
    | false => exact (erased_fields (hcut e he) hk).1
  rw [fieldsOf_flatMap hbegin]
  clear hbegin
  induction es with
  | nil => rfl
  | cons e es ih =>
    have hrec := ih (fun x hx => hcut x (by simp [hx])) (fun x hx => hfolds x (by simp [hx]))
      fun x hx => hbegins x (by simp [hx])
    rw [List.flatMap_cons, List.filter_append, hrec, List.filter_cons]
    cases hk : keptKey e.key with
    | true =>
      rw [if_pos rfl, List.flatMap_cons, List.filter_append, hfolds e (by simp) hk, List.append_nil]
    | false =>
      rw [if_neg (by decide), (erased_fields (hcut e (by simp)) hk).2 name h1 h2, List.nil_append]

end Fields

/-! ## When the head is preserved -/

section Iff

variable {o : HashOrder} {req : HttpRequest} {client up : RequestHead} {es : List Entry}

theorem hostLine_field (host : List Char) (h : ¬ crlf <:+: host) :
    BeginsField [hostLine host h] ∧ fieldsOf [hostLine host h] = [⟨hostLine host h, []⟩] ∧
      Field.name ⟨hostLine host h, []⟩ = "host".toList ∧
      Field.value ⟨hostLine host h, []⟩ = ' ' :: host := by
  have hc : ¬ (hostLine host h).Continues := by
    rintro ⟨c, hc, hb⟩
    cases hc
    exact absurd hb (by decide)
  refine ⟨fun l hl => ?_, ?_, rfl, ?_⟩
  · rw [List.head?_cons, Option.some.injEq] at hl
    exact hl ▸ hc
  · exact fieldsOf_folded hc (by simp)
  · show ' ' :: host ++ [] = _
    exact List.append_nil _

theorem kept_eq (he : entries client.lines = some es) :
    client.kept = es.filter fun e => keptKey e.key := by
  unfold RequestHead.kept
  rw [he, Option.getD_some]

/-- The fields of the head that is written. -/
theorem up_fields (he : entries client.lines = some es) (hs : SendsHead o req client up)
    (hb : ∀ e ∈ Entry.table es, keptKey e.key = true → BeginsField e.lines) :
    ∃ (ks : List Entry) (h : ¬ crlf <:+: req.host),
      ks.Perm ((Entry.table es).filter fun e => keptKey e.key) ∧
      fieldsOf up.lines =
        ks.flatMap (fun e => fieldsOf e.lines) ++ [⟨hostLine req.host h, []⟩] := by
  obtain ⟨ks, hperm, h, hlines⟩ := hs.lines
  rw [he, Option.getD_some] at hperm
  obtain ⟨hbegin, hfield, -, -⟩ := hostLine_field req.host h
  refine ⟨ks, h, hperm, ?_⟩
  rw [hlines, fieldsOf_append _ hbegin, hfield, fieldsOf_flatMap]
  intro e hmem
  obtain ⟨hin, hk⟩ := List.mem_filter.mp (hperm.subset hmem)
  exact hb e hin hk

/-- Fields of other names only. -/
theorem fieldsNamed_eq_nil {fs : List Field} {name : List Char} (h : ∀ f ∈ fs, f.name ≠ name) :
    fs.filter (fun f => f.name = name) = [] := by
  rw [List.filter_eq_nil_iff]
  intro f hf
  rw [decide_eq_true_eq]
  exact h f hf

theorem preserves_of_clean (he : entries client.lines = some es) (hs : SendsHead o req client up)
    (hc : Clean client req.port) : Preserves client up req.host req.port := by
  have hkept := kept_eq he
  have hmem : ∀ e, e ∈ es → keptKey e.key = true → e ∈ client.kept := by
    intro e hin hk
    rw [hkept]
    exact List.mem_filter.mpr ⟨hin, hk⟩
  obtain ⟨ks, h, hperm, hup⟩ := up_fields he hs fun e hin hk =>
    hc.begins e (hmem e (Entry.mem_table hin) hk)
  have hkeys := hc.keys
  rw [hkept] at hkeys
  rw [Entry.filter_table hkeys, ← hkept] at hperm
  obtain ⟨-, -, hname, hvalue⟩ := hostLine_field req.host h
  refine ⟨hs.method, hs.target, hs.version, fun name h1 h2 => ?_, ?_⟩
  · have hclient := client_fields (entries_cut he) (fun e hin hk => hc.folds e (hmem e hin hk))
      (fun e hin hk => hc.begins e (hmem e hin hk)) h1 h2
    have hlast :
        ([⟨hostLine req.host h, []⟩] : List Field).filter (fun f => f.name = name) = [] := by
      rw [List.filter_singleton, hname, decide_eq_false (Ne.symm h1)]
      rfl
    unfold fieldsNamed
    rw [hup, List.filter_append, hlast, List.append_nil, entries_flatten he, hclient, ← hkept]
    exact Reorder.filter_flatMap_perm hperm (hc.names name)
  · have hnone : (ks.flatMap fun e => fieldsOf e.lines).filter
        (fun f => f.name = "host".toList) = [] := by
      apply fieldsNamed_eq_nil
      intro f hf
      obtain ⟨e, hin, hfe⟩ := List.mem_flatMap.mp hf
      exact hc.noHost e (hperm.subset hin) f hfe
    unfold fieldsNamed authority
    rw [hup, List.filter_append, hnone, List.nil_append, List.filter_singleton, hname,
      decide_eq_true rfl, if_pos hc.port]
    show [Field.value ⟨hostLine req.host h, []⟩] = _
    rw [hvalue]

/-- The entry of a field is one line, and this is a field without its continuation. -/
theorem entry_fields {ls : List HeaderLine} {f : Field} (hf : f ∈ fieldsOf ls) :
    BeginsField f.entry.lines ∧ fieldsOf f.entry.lines = [⟨f.line, []⟩] := by
  obtain ⟨hc, -⟩ := (mem_cutFields ls).2 f hf
  refine ⟨fun l hl => ?_, fieldsOf_folded hc (by simp)⟩
  rw [Field.entry, List.head?_cons, Option.some.injEq] at hl
  exact hl ▸ hc

/-- The names in the head that is written: those of the entries, and `host`. -/
theorem up_names (hcan : Canonical client.lines) (hs : SendsHead o req client up) :
    ∃ (ks : List Entry) (h : ¬ crlf <:+: req.host), (ks.map Entry.key).Nodup ∧
      (∀ e ∈ ks, keptKey e.key = true) ∧
      (∀ f ∈ fieldsOf up.lines, f.folds = []) ∧
      (fieldsOf up.lines).map Field.name = ks.map Entry.key ++ ["host".toList] ∧
      (fieldsNamed up.lines "host".toList) = [⟨hostLine req.host h, []⟩] := by
  have hone : ∀ e ∈ Entry.table ((fieldsOf client.lines).map Field.entry),
      ∃ f : Field, f ∈ fieldsOf client.lines ∧ e = f.entry := by
    intro e he
    obtain ⟨f, hf, rfl⟩ := List.mem_map.mp (Entry.mem_table he)
    exact ⟨f, hf, rfl⟩
  obtain ⟨ks, h, hperm, hup⟩ := up_fields hcan.entries hs fun e he _ => by
    obtain ⟨f, hf, rfl⟩ := hone e he
    exact (entry_fields hf).1
  obtain ⟨-, -, hname, -⟩ := hostLine_field req.host h
  have hks : ∀ e ∈ ks, keptKey e.key = true ∧
      ∃ f : Field, f ∈ fieldsOf client.lines ∧ e = f.entry := by
    intro e he
    obtain ⟨hin, hk⟩ := List.mem_filter.mp (hperm.subset he)
    exact ⟨hk, hone e hin⟩
  have hcut :
      ks.flatMap (fun e => fieldsOf e.lines) = ks.flatMap fun e => e.lines.map (⟨·, []⟩) := by
    refine List.flatMap_congr fun e he => ?_
    obtain ⟨-, f, hf, rfl⟩ := hks e he
    rw [(entry_fields hf).2]
    rfl
  have hnames : (ks.flatMap fun e => fieldsOf e.lines).map Field.name = ks.map Entry.key := by
    clear hup hperm hcut
    induction ks with
    | nil => rfl
    | cons e ks ih =>
      obtain ⟨-, f, hf, rfl⟩ := hks e (by simp)
      rw [List.flatMap_cons, List.map_append, ih fun e he => hks e (by simp [he]),
        (entry_fields hf).2]
      rfl
  have hkeys : ∀ k, k ∈ ks.map Entry.key → k ≠ "host".toList := by
    rintro k hin rfl
    obtain ⟨e, he, hek⟩ := List.mem_map.mp hin
    have := (hks e he).1
    rw [hek] at this
    exact absurd this (by decide)
  refine ⟨ks, h, ?_, fun e he => (hks e he).1, fun f hf => ?_, ?_, ?_⟩
  · exact ((hperm.map Entry.key).nodup_iff).mpr
      ((Entry.nodup_table _).sublist (List.filter_sublist.map Entry.key))
  · rw [hup, hcut, List.mem_append, List.mem_flatMap, List.mem_singleton] at hf
    rcases hf with ⟨e, -, hf⟩ | rfl
    · obtain ⟨l, -, rfl⟩ := List.mem_map.mp hf
      rfl
    · rfl
  · rw [hup, List.map_append, hnames, List.map_singleton, hname]
  · have hnone : (ks.flatMap fun e => fieldsOf e.lines).filter
        (fun f => f.name = "host".toList) = [] := by
      exact fieldsNamed_eq_nil fun f hf => hkeys _ (hnames ▸ List.mem_map_of_mem hf)
    unfold fieldsNamed
    rw [hup, List.filter_append, hnone, List.nil_append, List.filter_singleton, hname,
      decide_eq_true rfl]
    rfl

theorem clean_of_preserves (hcan : Canonical client.lines) (hs : SendsHead o req client up)
    (hp : Preserves client up req.host req.port) : Clean client req.port := by
  obtain ⟨ks, h, hnodup, hk, hfolds, hnames, hhost⟩ := up_names hcan hs
  have hkept : client.kept =
      ((fieldsOf client.lines).map Field.entry).filter fun e => keptKey e.key :=
    kept_eq hcan.entries
  have hmem : ∀ e ∈ client.kept, keptKey e.key = true ∧
      ∃ f : Field, f ∈ fieldsOf client.lines ∧ e = f.entry := by
    intro e he
    rw [hkept] at he
    obtain ⟨hin, hke⟩ := List.mem_filter.mp he
    obtain ⟨f, hf, rfl⟩ := List.mem_map.mp hin
    exact ⟨hke, f, hf, rfl⟩
  have hnot : ∀ k, keptKey k = true → k ≠ "host".toList ∧ k ≠ "proxy-connection".toList := by
    intro k hk
    constructor <;> rintro rfl <;> exact absurd hk (by decide)
  have hclientNames : (fieldsOf client.lines).map Field.name =
      ((fieldsOf client.lines).map Field.entry).map Entry.key := by
    rw [List.map_map]
    rfl
  have hkeys : (client.kept.map Entry.key).Nodup := by
    rw [List.nodup_iff_count]
    intro k
    cases hkk : keptKey k with
    | false =>
      rw [List.count_eq_zero_of_not_mem]
      · exact Nat.zero_le 1
      · intro hin
        obtain ⟨e, he, rfl⟩ := List.mem_map.mp hin
        rw [(hmem e he).1] at hkk
        cases hkk
    | true =>
      obtain ⟨h1, h2⟩ := hnot k hkk
      calc (client.kept.map Entry.key).count k
          ≤ (((fieldsOf client.lines).map Field.entry).map Entry.key).count k := by
            rw [hkept]
            exact (List.filter_sublist.map Entry.key).count_le k
        _ = (fieldsNamed client.lines k).length := by rw [length_fieldsNamed, hclientNames]
        _ = (fieldsNamed up.lines k).length := by rw [hp.fields k h1 h2]
        _ = (ks.map Entry.key ++ ["host".toList]).count k := by rw [length_fieldsNamed, hnames]
        _ = (ks.map Entry.key).count k := by
            rw [List.count_append, List.count_eq_zero_of_not_mem (l := ["host".toList]),
              Nat.add_zero]
            simpa using h1
        _ ≤ 1 := List.nodup_iff_count.mp hnodup k
  refine ⟨?_, fun e he => ?_, hkeys, fun e he => ?_, fun name => ?_, fun e he f hf => ?_⟩
  · obtain ⟨-, -, -, hvalue⟩ := hostLine_field req.host h
    have hv := hp.host
    rw [hhost, List.map_singleton, hvalue, List.cons.injEq, List.cons.injEq] at hv
    by_contra hport
    have hlen := congrArg List.length hv.1.2
    unfold authority at hlen
    rw [if_neg hport, List.length_append, List.length_cons] at hlen
    omega
  · obtain ⟨hke, f, hf, rfl⟩ := hmem e he
    obtain ⟨h1, h2⟩ := hnot _ hke
    have hin : f ∈ fieldsNamed client.lines f.name := List.mem_filter.mpr ⟨hf, by simp⟩
    rw [← hp.fields f.name h1 h2] at hin
    exact hfolds f (List.mem_filter.mp hin).1
  · obtain ⟨-, f, hf, rfl⟩ := hmem e he
    exact (entry_fields hf).1
  · have hne := List.pairwise_map.mp hkeys
    refine hne.imp_of_mem fun {a b} ha hb hab => ?_
    obtain ⟨-, f, hf, rfl⟩ := hmem a ha
    obtain ⟨-, g, hg, rfl⟩ := hmem b hb
    show (fieldsOf f.entry.lines).filter _ = [] ∨ (fieldsOf g.entry.lines).filter _ = []
    rw [(entry_fields hf).2, (entry_fields hg).2]
    by_cases hname : f.name = name
    · right
      have hgn : Field.name ⟨g.line, []⟩ ≠ name := fun h => hab (hname.trans h.symm)
      rw [List.filter_singleton, decide_eq_false hgn]
      rfl
    · left
      have hfn : Field.name ⟨f.line, []⟩ ≠ name := hname
      rw [List.filter_singleton, decide_eq_false hfn]
      rfl
  · obtain ⟨hke, g, hg, rfl⟩ := hmem e he
    rw [(entry_fields hg).2, List.mem_singleton] at hf
    subst hf
    exact (hnot _ hke).1

end Iff

/-! ## The request that was accepted -/

/-- The authority of the request: its host, and its port. -/
def RequestLine.HasAuthority (l : RequestLine) (make : HttpRequest) (host port : List Char) :
    Prop :=
  (l.service = [] ∧ host = make.host ∧ port = make.port) ∨
    (l.service ≠ [] ∧ IsService l.service host port)

section Accepted

variable {hd : HttpHandler} {sel : Selected} {make own : HttpRequest} {a : Accepted}
  {client : RequestHead} {es : List Entry}

theorem host_noCrlf {l : RequestLine} {host port : List Char} (h : l.HasAuthority make host port)
    (hmake : ¬ crlf <:+: make.host) : ¬ crlf <:+: host := by
  rcases h with ⟨-, rfl, -⟩ | ⟨-, ⟨hs, -⟩ | hs⟩
  · exact hmake
  · exact hs ▸ l.service_noCrlf
  · refine fun hc => l.service_noCrlf (hc.trans ?_)
    rw [hs]
    exact (List.prefix_append _ _).isInfix

/-- The head that is written of an accepted request, when its host is not empty. -/
theorem sendsHead_of_accepted (o : HashOrder) (ha : AcceptedAs hd sel make a client es own)
    (hmake : make.headers = []) (hown : own.host ≠ []) (hcr : ¬ crlf <:+: a.req.host) :
    ∃ up, SendsHead o a.req client up := by
  obtain ⟨ks, hperm, htext⟩ := exists_kept_order o es
  obtain ⟨hsp, hno⟩ := client.line.path_text
  let line : RequestLine := ⟨client.line.method, client.line.path, client.line.version,
    client.line.method_text, hsp, client.line.version_text, client.line.noCrlf.1, hno⟩
  refine ⟨⟨line, ks.flatMap Entry.lines ++ [hostLine a.req.host hcr]⟩, ?_, rfl, rfl, rfl, ks, ?_,
    hcr, rfl⟩
  · unfold reqLine RequestHead.encode
    dsimp only
    rw [ha.headers, hmake, htext, ha.methodStr, ha.line.method, ha.url, ha.line.url hown,
      ha.version, ha.line.version, linesText_append, linesText_cons, linesText_nil,
      show crlfcrlf = crlf ++ crlf from rfl]
    dsimp only [line, RequestLine.text, hostLine]
    generalize "Host: ".toList = hostName
    generalize " ".toList = sp
    simp only [List.append_assoc, List.append_nil]
  · rw [ha.entries, Option.getD_some]
    exact hperm

end Accepted

section Rewrite

variable {hd : HttpHandler} {sel : Selected} {m : Memory} {a : Accepted} {mhost mport : List Char}

/-- **Rewriting a proxied request**: the head that goes upstream keeps what the
client's says if the client's is clean; one that is cut into fields as it is cut
into entries must be. -/
theorem reqLine_preserves_iff
    (hsize : ∀ r n incoming, Feed.pullUntil crlfcrlf [] m.incoming = some (r, n, incoming) →
      n < 2 ^ 31)
    (hmake : ¬ crlf <:+: mhost)
    (ha : acceptHead hd sel m.reset (.make mhost mport) = .ret a) (hacc : a.accepted = true)
    (hm : a.req.method ≠ .connect) (hhost : a.req.host ≠ [])
    (hsame : ∀ m1 own headerEnd,
      parserRequestLine m.reset (.make mhost mport) = .ret (m1, some (own, headerEnd)) →
        own.host = a.req.host) (o : HashOrder) :
    ∃ (r : List Char) (n : Nat) (incoming : List (List Char)) (client up : RequestHead),
      Feed.pullUntil crlfcrlf [] m.incoming = some (r, n, incoming) ∧
      r.take n = client.encode ∧ reqLine o a.req = up.encode ∧
      client.line.HasAuthority (.make mhost mport) a.req.host a.req.port ∧
      (Clean client a.req.port → Preserves client up a.req.host a.req.port) ∧
      (Canonical client.lines → Preserves client up a.req.host a.req.port →
        Clean client a.req.port) := by
  cases hp : Feed.pullUntil crlfcrlf [] m.incoming with
  | none =>
    obtain ⟨m1, req, headerEnd, hline, -⟩ := acceptHead_accepted ha hacc
    rw [parserRequestLine_of_none (m := m.reset) hp] at hline
    cases hline
  | some q =>
    obtain ⟨r, n, incoming⟩ := q
    obtain ⟨client, es, own, hclient, has, ⟨m1, headerEnd, hline⟩, -⟩ :=
      acceptHead_spec (wf_reset m) (unread_reset m) rfl hp (hsize r n incoming hp) ha hacc hm
    have hown := hsame m1 own headerEnd hline
    have hauth : client.line.HasAuthority (.make mhost mport) a.req.host a.req.port := by
      rw [has.port, ← hown]
      exact has.line.service
    obtain ⟨up, hup⟩ := sendsHead_of_accepted o has rfl (hown ▸ hhost) (host_noCrlf hauth hmake)
    exact ⟨r, n, incoming, client, up, rfl, hclient, hup.text, hauth,
      preserves_of_clean has.entries hup, fun hcan => clean_of_preserves hcan hup⟩

end Rewrite

/-- `GET http://a/ HTTP/1.1` with these header lines. -/
def getHead (lines : List HeaderLine) : RequestHead where
  line := ⟨"GET".toList, "http://a/".toList, "HTTP/1.1".toList, by decide, by decide, by decide,
    by decide⟩
  lines := lines

def fieldLine (text : List Char) (hne : text ≠ []) (h : ¬ crlf <:+: text) : HeaderLine :=
  ⟨text, hne, h⟩

/-- `Accept` and `Cookie` go upstream, the `Host` and the `Proxy-Connection` around them do not. -/
def browserLines : List HeaderLine :=
  [fieldLine "Host: a:80".toList (by decide) (by decide),
    fieldLine "Accept: *".toList (by decide) (by decide),
    fieldLine "Proxy-Connection: d".toList (by decide) (by decide),
    fieldLine "Cookie: c".toList (by decide) (by decide)]

theorem browserLines_clean : Clean (getHead browserLines) "80".toList := by
  have hkept : (getHead browserLines).kept =
      [⟨"Accept".toList, [fieldLine "Accept: *".toList (by decide) (by decide)], []⟩,
        ⟨"Cookie".toList, [fieldLine "Cookie: c".toList (by decide) (by decide)], []⟩] := rfl
  refine ⟨rfl, ?_, ?_, ?_, fun name => ?_, ?_⟩
  · decide
  · decide
  · intro e he l hl
    rw [hkept] at he
    rcases List.mem_pair.mp he with rfl | rfl
    · cases hl
      decide
    · cases hl
      decide
  · -- one field each, and their names differ
    rw [hkept, List.pairwise_pair]
    by_cases hname : name = "accept".toList
    · right
      subst hname
      rfl
    · left
      have hone : fieldsOf [fieldLine "Accept: *".toList (by decide) (by decide)] =
          [⟨fieldLine "Accept: *".toList (by decide) (by decide), []⟩] :=
        fieldsOf_folded (by decide) (by simp)
      show List.filter _ (fieldsOf [fieldLine "Accept: *".toList _ _]) = []
      rw [hone, List.filter_eq_nil_iff]
      intro f hf
      rw [List.mem_singleton.mp hf, decide_eq_true_eq]
      exact Ne.symm hname
  · decide

/-- What was accepted of such a head, of `n` characters. -/
def getAccepted (n : Nat) (headers : Headers) : Accepted where
  ss := { fresh .plain [] none with readIndex := n, writeIndex := n }
  selected := ⟨"a".toList, "80".toList, some .empty⟩
  req := { HttpRequest.make "a".toList "80".toList with
    headers := headers
    method := .other
    version := "HTTP/1.1".toList
    methodStr := "GET".toList
    url := "/".toList
    urlParamStart := 1 }
  accepted := true

/-- Four fields, read in two pieces. -/
theorem reqLine_preserves_fields :
    ∃ up : RequestHead,
      reqLine ⟨id, List.Perm.refl⟩
        (getAccepted 81 [("host".toList, "Host: a:80\r\n".toList),
          ("accept".toList, "Accept: *\r\n".toList),
          ("proxy-connection".toList, "Proxy-Connection: d\r\n".toList),
          ("cookie".toList, "Cookie: c\r\n".toList)]).req = up.encode ∧
      Preserves (getHead browserLines) up "a".toList "80".toList := by
  let text := "GET http://a/ HTTP/1.1\r\nHost: a:80\r\nAccept: *\r\n".toList ++
    "Proxy-Connection: d\r\nCookie: c\r\n\r\n".toList
  let m := fresh .plain ["GET http://a/ HTTP/1.1\r\nHost: a:80\r\nAccept: *\r\n".toList,
    "Proxy-Connection: d\r\nCookie: c\r\n\r\n".toList] none
  let a := getAccepted 81 [("host".toList, "Host: a:80\r\n".toList),
    ("accept".toList, "Accept: *\r\n".toList),
    ("proxy-connection".toList, "Proxy-Connection: d\r\n".toList),
    ("cookie".toList, "Cookie: c\r\n".toList)]
  have hpull : Feed.pullUntil crlfcrlf [] m.incoming = some (text, 81, []) := by decide +kernel
  have ha : acceptHead ⟨[], [], []⟩ .init m.reset (.make [] []) = .ret a := by decide +kernel
  have hown : parserRequestLine m.reset (.make [] []) =
      .ret ((m.reset.append text []).removeSome 24, some ({ a.req with headers := [] }, 55)) := by
    decide +kernel
  obtain ⟨r, n, incoming, client, up, hr, hclient, hup, -, hpres, -⟩ :=
    reqLine_preserves_iff (m := m) (by
      intro r n incoming hr
      rw [hpull] at hr
      cases hr
      decide) (by decide) ha rfl (by decide) (by decide) (by
      intro m1 own headerEnd hline
      rw [hown] at hline
      cases hline
      rfl) ⟨id, List.Perm.refl⟩
  rw [hpull] at hr
  cases hr
  have hget : client = getHead browserLines :=
    RequestHead.encode_injective (hclient.symm.trans (by decide +kernel))
  subst hget
  exact ⟨up, hup, hpres browserLines_clean⟩

/-- Of two `Accept` fields one goes upstream. -/
theorem reqLine_loses_repeated :
    ¬ ∀ (m : Memory) (o : HashOrder) (a : Accepted) (client up : RequestHead),
      acceptHead ⟨[], [], []⟩ .init m.reset (.make [] []) = .ret a → a.accepted = true →
      a.req.method ≠ .connect → a.req.host ≠ [] → m.incoming.flatten = client.encode →
      reqLine o a.req = up.encode → Preserves client up a.req.host a.req.port := by
  intro hall
  let m := fresh .plain ["GET http://a/ HTTP/1.1\r\nAccept: b\r\nAccept: c\r\n\r\n".toList] none
  have h := hall m ⟨id, List.Perm.refl⟩ (getAccepted 48 [("accept".toList, "Accept: c\r\n".toList)])
    (getHead [fieldLine "Accept: b".toList (by decide) (by decide),
      fieldLine "Accept: c".toList (by decide) (by decide)])
    ⟨⟨"GET".toList, "/".toList, "HTTP/1.1".toList, by decide, by decide, by decide, by decide⟩,
      [fieldLine "Accept: c".toList (by decide) (by decide), hostLine "a".toList (by decide)]⟩
    (by decide +kernel) rfl (by decide) (by decide) (by decide) (by decide)
  have hlen := congrArg List.length (h.fields "accept".toList (by decide) (by decide))
  revert hlen
  decide

end Hcpp
