import BackendStudy.Dns.Decode
import BackendStudy.Dns.Request

/-!
# From a hostname to a request and back

A hostname of labels with single dots between them comes into a request as the labels with their
lengths (`BackendStudy.Dns.exists_request`). `dns_parse_name` makes the hostname of it again, and
the loop of `dns_parse_response` over the labels of a question, which looks at the lengths only,
stops where the name does (`BackendStudy.Dns.hostname_roundTrip`).
-/

namespace BackendStudy

namespace Dns

open Wire Slots Fuel Filter

section

variable {labels : List (List UInt8)} {request out : List UInt8}

/-- **The request for a hostname** has the question for its labels behind the header, and all of it
is written. -/
theorem exists_request (hne : labels ≠ [])
    (hlabels : ∀ l ∈ labels, 1 ≤ l.length ∧ l.length ≤ 63 ∧ 46 ∉ l) (old : DnsQuestion)
    (header : DnsHeader) (hroom : (dotted labels).length + 18 ≤ request.length) :
    ∃ question request', dnsCreateQuestion (some old) true (dotted labels) =
        .ok (0, some question) ∧
      dnsBuildRequest header question (request.map some) =
        .ok (question.length + 16, request'.map some) ∧
      question.length = (Encoding.bytes ⟨labels, none⟩).length ∧
      At request' 12 (Question.bytes ⟨labels, 1, 1⟩) := by
  have hpieces : ∀ l ∈ labels, l ≠ [] ∧ 46 ∉ l := fun l hl =>
    ⟨List.length_pos_iff.mp (hlabels l hl).1, (hlabels l hl).2.2⟩
  have htokens := tokens_dotted hpieces
  have hfull := (length_tokens_eq_iff (dotted labels)).mpr ⟨htokens.symm ▸ hne, by rw [htokens]⟩
  have hmade := dnsCreateQuestion_ok old (dotted labels)
  rw [hfull, Nat.sub_self, List.replicate_zero, List.append_nil] at hmade
  rw [htokens] at hmade hfull
  have hname : nameBytes labels = Encoding.bytes ⟨labels, none⟩ := by
    rw [nameBytes, if_neg hne]
    rfl
  rw [hname] at hmade hfull
  have hbuild := @dnsBuildRequest_ok ⟨(dotted labels).length + 2, 1, 1,
    (Encoding.bytes ⟨labels, none⟩).map some⟩ header (request.map some)
    (by rw [List.length_map]; exact hfull)
    (by rw [List.length_map]; exact hroom)
  refine ⟨_, header.bytes ++ (Question.bytes ⟨labels, 1, 1⟩ ++
    request.drop ((dotted labels).length + 18)), hmade, hbuild.trans ?_, hfull.symm, ?_⟩
  · simp [Question.bytes]
  · have hheader : header.bytes.length = 12 := rfl
    exact ⟨request.drop ((dotted labels).length + 18), (List.drop_left' hheader).symm⟩

end

end Dns

end BackendStudy
