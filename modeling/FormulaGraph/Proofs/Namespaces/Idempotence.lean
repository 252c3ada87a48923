import FormulaGraph.Proofs.Namespaces
import FormulaGraph.Proofs.Trim

/-! Converting twice. Full forms extend to themselves just if no namespace, with or without more
behind it, is a prefixed identifier that stands for something else; then short forms are kept as
well. -/
namespace FormulaGraph

namespace Text

def Ranges.disjoint (r s : Ranges) : Bool := r.all fun a => s.all fun b => a.2 < b.1 || b.2 < a.1

theorem Ranges.contains_eq_false {r s : Ranges} (h : r.disjoint s = true) {code : Nat}
    (hs : s.contains code = true) : r.contains code = false := by
  obtain ⟨b, hb, hcode⟩ := List.any_eq_true.1 hs
  refine List.any_eq_false.2 fun a ha => ?_
  have hapart := List.all_eq_true.1 (List.all_eq_true.1 h a ha) b hb
  simp only [Bool.or_eq_true, Bool.and_eq_true, decide_eq_true_eq] at hapart hcode ⊢
  omega

theorem isBlank_of_isWord {c : Char} (h : isWord c = true) : isBlank c = false := by
  by_cases hascii : c.toNat < 0x80
  · have hall : ∀ code < 0x80, isWord (Char.ofNat code) = true →
        isBlank (Char.ofNat code) = false := by decide +kernel
    rw [← Char.ofNat_toNat c] at h ⊢
    exact hall _ hascii h
  · rw [isWord, if_neg hascii] at h
    exact Ranges.contains_eq_false (by decide +kernel) h

theorem isWord_of_isAlpha {c : Char} (h : c.isAlpha = true) : isWord c = true := by
  have hascii : c.toNat < 0x80 := by
    have hrange := toNat_of_isAlpha h
    omega
  rw [isWord, if_pos hascii, Char.isAlphanum, h]
  rfl

end Text

open Text

namespace Namespaces

/-- A prefix is made of characters that a local part may hold. -/
theorem isLocalChar_of_isPrefixName {name : List Char} (h : isPrefixName name = true) {c : Char}
    (hc : c ∈ name) : isLocalChar c = true := by
  have hword : ∀ d : Char, isWord d = true → isLocalChar d = true := by
    intro d hd
    have hbrackets : d ≠ '[' ∧ d ≠ ']' ∧ d ≠ '(' ∧ d ≠ ')' ∧ d ≠ '/' := by
      refine ⟨?_, ?_, ?_, ?_, ?_⟩ <;> (rintro rfl; exact absurd hd (by decide))
    simp [isLocalChar, isBlank_of_isWord hd, hbrackets]
  have hcases := mem_of_isPrefixName h hc
  simp only [Bool.or_eq_true, beq_iff_eq] at hcases
  obtain ((halpha | hc) | rfl) | rfl := hcases
  · exact hword c (isWord_of_isAlpha halpha)
  · exact hword c hc
  · decide
  · decide

theorem dropFinalLineFeed_of_local {cs : List Char} (h : ∀ c ∈ cs.getLast?, isLocalChar c = true) :
    dropFinalLineFeed cs = cs :=
  if_neg fun hlast => absurd (h _ hlast) (by decide)

/-- No full form is a prefixed identifier that stands for something else: no namespace is one, and a
prefix that begins with a namespace stands for itself. -/
structure Settled (ns : Namespaces) : Prop where
  full : ∀ e ∈ ns.table.entries, isPrefixName e.1.toList = true → ns.extend e.2 = e.2
  begun : ∀ e ∈ ns.table.entries, isPrefixName e.1.toList = true →
    ∀ f ∈ ns.table.entries, isPrefixName f.1.toList = true →
      e.2.toList <+: f.1.toList → f.2 = f.1 ++ ":"

variable {ns : Namespaces} {x : String}

theorem settled_iff : ns.Settled ↔
    (∀ e ∈ ns.table.entries, isPrefixName e.1.toList = true → ns.extend e.2 = e.2) ∧
      ∀ e ∈ ns.table.entries, isPrefixName e.1.toList = true →
        ∀ f ∈ ns.table.entries, isPrefixName f.1.toList = true →
          e.2.toList <+: f.1.toList → f.2 = f.1 ++ ":" :=
  ⟨fun h => ⟨h.full, h.begun⟩, fun h => ⟨h.1, h.2⟩⟩

instance (ns : Namespaces) : Decidable ns.Settled := decidable_of_iff' _ settled_iff

/-- What is not its own full form has a registered prefix, and its local part ends behind the
namespace. -/
theorem exists_of_extend_ne (h : ns.extend x ≠ x) : ∃ name uri tail,
    ns.table.get? name = some uri ∧ isPrefixName name.toList = true ∧
      (dropFinalLineFeed tail).all isLocalChar = true ∧ x.toList = name.toList ++ ':' :: tail ∧
      (ns.extend x).toList = uri.toList ++ dropFinalLineFeed tail := by
  unfold extend at h ⊢
  split at h
  · contradiction
  · rename_i name rest hsplit
    split at h
    · contradiction
    · rename_i uri hget
      obtain ⟨tail, hx, rfl, hname, hrest⟩ := splitPrefixed?_eq_some hsplit
      refine ⟨String.ofList name, uri, tail, hget, by simpa using hname, hrest,
        by simpa using hx, ?_⟩
      rw [String.toList_append, String.toList_ofList]

theorem Settled.full_of_get? (h : ns.Settled) {name uri : String}
    (hget : ns.table.get? name = some uri) (hname : isPrefixName name.toList = true) :
    ns.extend uri = uri :=
  h.full _ (Table.get?_eq_some_iff.1 hget) hname

theorem Settled.begun_of_get? (h : ns.Settled) {name uri name' uri' : String}
    (hget : ns.table.get? name = some uri) (hname : isPrefixName name.toList = true)
    (hget' : ns.table.get? name' = some uri') (hname' : isPrefixName name'.toList = true)
    (hstart : uri.toList <+: name'.toList) : uri' = name' ++ ":" :=
  h.begun _ (Table.get?_eq_some_iff.1 hget) hname _ (Table.get?_eq_some_iff.1 hget') hname' hstart

/-- A prefixed identifier that is its own full form has a prefix that stands for itself. -/
theorem eq_of_extend_self {name uri : String} {rest : List Char}
    (hget : ns.table.get? name = some uri) (hname : isPrefixName name.toList = true)
    (hrest : rest.all isLocalChar = true) (hx : x.toList = name.toList ++ ':' :: rest)
    (hself : ns.extend x = x) : uri = name ++ ":" := by
  have hsplit : x = name ++ ":" ++ String.ofList rest := String.toList_injective (by simp [hx])
  have hexpanded : ns.extend x = uri ++ String.ofList rest := by
    rw [hsplit, extend_prefixed hget hname (by simpa using hrest)]
  have hlists := congrArg String.toList (hexpanded.symm.trans (hself.trans hsplit))
  rw [String.toList_append, String.toList_append] at hlists
  exact String.toList_injective (List.append_cancel_right hlists)

theorem Settled.extend_extend (h : ns.Settled) (x : String) :
    ns.extend (ns.extend x) = ns.extend x := by
  by_contra hne
  obtain ⟨name, uri, tail, hget, hname, hrest, -, hfull⟩ :=
    exists_of_extend_ne fun hself => hne (congrArg ns.extend hself)
  obtain ⟨name', uri', tail', hget', hname', hrest', hsplit, hfull'⟩ := exists_of_extend_ne hne
  generalize dropFinalLineFeed tail = rest at hrest hfull
  have hlocal : ∀ c ∈ rest, isLocalChar c = true := List.all_eq_true.1 hrest
  have hsame : uri.toList ++ rest = name'.toList ++ ':' :: tail' := hfull.symm.trans hsplit
  -- a prefix that stands for itself gives the text back
  have hself : uri' = name' ++ ":" → (∀ c ∈ tail'.getLast?, isLocalChar c = true) → False := by
    rintro rfl hlast
    refine hne (String.toList_injective ?_)
    rw [hfull', hsplit, dropFinalLineFeed_of_local hlast]
    simp
  -- the second prefix ends behind the first namespace or within it
  rcases List.append_eq_append_iff.1 hsame with ⟨more, hmore, hsuffix⟩ | ⟨more, hmore, hsuffix⟩
  · refine hself (h.begun_of_get? hget hname hget' hname' ⟨more, hmore.symm⟩) fun c hc => ?_
    refine hlocal c ?_
    rw [hsuffix]
    exact List.mem_append_right _ (List.mem_cons_of_mem _ (List.mem_of_getLast? hc))
  · cases more with
    | nil =>
      rw [List.append_nil] at hmore
      have hstart : uri.toList <+: name'.toList := hmore ▸ List.prefix_rfl
      refine hself (h.begun_of_get? hget hname hget' hname' hstart) fun c hc => hlocal c ?_
      rw [List.nil_append] at hsuffix
      rw [← hsuffix]
      exact List.mem_cons_of_mem _ (List.mem_of_getLast? hc)
    | cons d u =>
      obtain ⟨rfl, htail⟩ : ':' = d ∧ tail' = u ++ rest := List.cons.inj hsuffix
      have hfixed := h.full_of_get? hget hname
      rcases rest.eq_nil_or_concat' with rfl | ⟨init, last, rfl⟩
      · have huri : ns.extend x = uri := String.toList_injective (by rw [hfull, List.append_nil])
        exact hne (by rw [huri, hfixed])
      · have hlast : ∀ c ∈ tail'.getLast?, isLocalChar c = true := by
          intro c hc
          rw [htail, ← List.append_assoc, List.getLast?_concat] at hc
          exact hlocal c (by simp [Option.some.inj hc])
        rw [dropFinalLineFeed_of_local hlast, htail, List.all_append, Bool.and_eq_true] at hrest'
        exact hself (eq_of_extend_self hget' hname' hrest'.1 hmore hfixed) hlast

/-- Full forms extend to themselves just if no full form stands for something else. -/
theorem extend_extend_iff : (∀ x, ns.extend (ns.extend x) = ns.extend x) ↔ ns.Settled := by
  refine ⟨fun hidem => ⟨fun e he hname => ?_, fun e he hname f hf hname' hstart => ?_⟩,
    Settled.extend_extend⟩
  · have hfull : ns.extend (e.1 ++ ":" ++ "") = e.2 ++ "" :=
      extend_prefixed (Table.get?_eq_some_iff.2 he) hname rfl
    have htwice := hidem (e.1 ++ ":" ++ "")
    rwa [hfull, String.append_empty] at htwice
  · obtain ⟨more, hmore⟩ := hstart
    have hlocal : (String.ofList (more ++ [':'])).toList.all isLocalChar = true := by
      rw [String.toList_ofList, List.all_append, Bool.and_eq_true]
      refine ⟨List.all_eq_true.2 fun c hc => isLocalChar_of_isPrefixName hname' ?_, by decide⟩
      rw [← hmore]
      exact List.mem_append_right _ hc
    have hfull := extend_prefixed (Table.get?_eq_some_iff.2 he) hname hlocal
    have hparts : e.2 ++ String.ofList (more ++ [':']) = f.1 ++ ":" ++ "" :=
      String.toList_injective (by simp [← hmore])
    have htwice := hidem (e.1 ++ ":" ++ String.ofList (more ++ [':']))
    rw [hfull, hparts, extend_prefixed (Table.get?_eq_some_iff.2 hf) hname' rfl] at htwice
    simpa using htwice

theorem shorten_eq_self_or (ns : Namespaces) (x : String) :
    ns.shorten x = x ∨ ns.extend (ns.shorten x) = x := by
  unfold shorten
  split
  · exact Or.inl rfl
  · dsimp only
    split
    · rename_i hback
      exact Or.inr hback
    · exact Or.inl rfl

/-- Where no full form stands for something else, short forms are kept. -/
theorem Settled.shorten_shorten (h : ns.Settled) (x : String) :
    ns.shorten (ns.shorten x) = ns.shorten x := by
  rcases ns.shorten_eq_self_or x with hself | hback
  · rw [hself, hself]
  · rcases ns.shorten_eq_self_or (ns.shorten x) with hself | hback'
    · exact hself
    · -- the short form is a full form, and so the text it stands for
      have hfull := h.extend_extend (ns.shorten (ns.shorten x))
      rw [hback', hback] at hfull
      rw [← hfull, ← hfull]

/-- Converting twice is converting once for full forms just if no full form stands for something
else, and then for short forms too. -/
theorem conversions_idempotent_iff (ns : Namespaces) :
    ((∀ x, ns.extend (ns.extend x) = ns.extend x) ↔ ns.Settled) ∧
      (ns.Settled → ∀ x, ns.shorten (ns.shorten x) = ns.shorten x) :=
  ⟨extend_extend_iff, Settled.shorten_shorten⟩

/-- Namespaces without a slash will do, as does a prefix that stands for itself. -/
theorem conversions_idempotent_urn :
    let ns := (standard.add "u" "urn:x:").add "p:" "p:"
    ns.Settled ∧ ns.extend (ns.extend "u:a") = ns.extend "u:a" ∧
      ns.shorten (ns.shorten "urn:x:a") = ns.shorten "urn:x:a" := by
  intro ns
  have hsettled : ns.Settled := by decide +kernel
  exact ⟨hsettled, (conversions_idempotent_iff ns).1.2 hsettled "u:a",
    (conversions_idempotent_iff ns).2 hsettled "urn:x:a"⟩

/-- A namespace that begins with a registered prefix is extended again, and a short form that begins
with a namespace is shortened again. -/
theorem conversions_not_idempotent :
    let ns := (standard.add "p" "q:").add "q" "http://u/"
    ns.extend (ns.extend "p:a") ≠ ns.extend "p:a" ∧
      ns.shorten (ns.shorten "http://u/a") ≠ ns.shorten "http://u/a" := by
  decide +kernel

end Namespaces
end FormulaGraph
