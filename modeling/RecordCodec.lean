import RecordCodec.Value.Equality
import RecordCodec.Main
import RecordCodec.Proofs.Schema.Table
import RecordCodec.Proofs.Schema.Meaning
import RecordCodec.Proofs.Schema.Faultless
import RecordCodec.Proofs.Codec.Ceiling
import RecordCodec.Proofs.Codec.Concatenation.Read
import RecordCodec.Proofs.Codec.Normal
import RecordCodec.Proofs.Codec.Padding
import RecordCodec.Proofs.Document.Faithful
import RecordCodec.Proofs.Document.Signedness
import RecordCodec.Proofs.Codec.Characters
import RecordCodec.Proofs.Codec.LengthContract
import RecordCodec.Proofs.Schema.References
import RecordCodec.Proofs.CommandLine.ReadBack
import RecordCodec.Proofs.Schema.Tiling
import RecordCodec.Proofs.Schema.Variants
import RecordCodec.Proofs.Document.Admitted
import RecordCodec.Proofs.Schema.EmbeddedTags
import RecordCodec.Proofs.Value.Equivalence
import RecordCodec.Proofs.Codec.FlagClosure
import RecordCodec.Proofs.Codec.Bounds
import RecordCodec.Proofs.Codec.TagPlace
import RecordCodec.Proofs.Codec.Integer
import RecordCodec.Proofs.Bytes.Hex
import RecordCodec.Proofs.Input.Ceiling
import RecordCodec.Proofs.Value.Supplied
import RecordCodec.Proofs.Bytes.Word
import RecordCodec.Proofs.Declaration.Json
