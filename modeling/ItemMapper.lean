import ItemMapper.Mapper
import ItemMapper.Proofs.Carried.Numbers
import ItemMapper.Proofs.Coding.DateStorage
import ItemMapper.Proofs.Combined.Mapper
import ItemMapper.Proofs.Expression.Addressing
import ItemMapper.Proofs.Expression.CallerPaths
import ItemMapper.Proofs.Expression.Complements
import ItemMapper.Proofs.Expression.Conditions
import ItemMapper.Proofs.Expression.Placeholders
import ItemMapper.Proofs.Expression.Unambiguous
import ItemMapper.Proofs.Forced.Mapper
import ItemMapper.Proofs.Lasting.Mapper
import ItemMapper.Proofs.Marshal.Lifetimes
import ItemMapper.Proofs.Omission.Mapper
import ItemMapper.Proofs.Plain.Additions
import ItemMapper.Proofs.Plain.Agreement
import ItemMapper.Proofs.Plain.Membership
import ItemMapper.Proofs.Plain.Operands
import ItemMapper.Proofs.Plain.Unions
import ItemMapper.Proofs.Reading.Expiry
import ItemMapper.Proofs.Recursion.Resolution
import ItemMapper.Proofs.Reference.Mapper
import ItemMapper.Proofs.Registration.Mapper
import ItemMapper.Proofs.Required.Mapper
import ItemMapper.Proofs.RoundTrip.Mapper
import ItemMapper.Proofs.Saving.Keys
import ItemMapper.Proofs.Saving.Mapper
import ItemMapper.Proofs.Schema.NativeNames
import ItemMapper.Proofs.Schema.Patterns
import ItemMapper.Proofs.Sets.Mapper
import ItemMapper.Proofs.Spelling.Documents
import ItemMapper.Proofs.Typing.Matching
import ItemMapper.Proofs.Unchecked.Mapper
import ItemMapper.Proofs.Undeclared.Depth
import ItemMapper.Proofs.Undeclared.Returned
import ItemMapper.Proofs.Update.Accounting
import ItemMapper.Proofs.Update.Append
import ItemMapper.Proofs.Update.Buckets
import ItemMapper.Proofs.Update.Checks
import ItemMapper.Proofs.Update.Combined
import ItemMapper.Proofs.Update.Fitting
import ItemMapper.Proofs.Update.Keys
import ItemMapper.Proofs.Update.Overlaps
import ItemMapper.Proofs.Update.Removals
import ItemMapper.Proofs.Wire.Shape
