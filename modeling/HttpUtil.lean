import HttpUtil.Text.Bytes
import HttpUtil.Text.Tokenizer
import HttpUtil.Tables
import HttpUtil.Quoting
import HttpUtil.Assembler
import HttpUtil.Assembler.RoundTrip
import HttpUtil.Iterators
import HttpUtil.Iterators.Headers
import HttpUtil.Iterators.Properties
import HttpUtil.Iterators.QuoteModes
import HttpUtil.Iterators.Recovery
import HttpUtil.Iterators.Refinement
import HttpUtil.Iterators.PropertyList
import HttpUtil.Iterators.QuotedValues
import HttpUtil.Iterators.HeaderLines
import HttpUtil.Numbers
import HttpUtil.ParseNumber
import HttpUtil.ContentType
import HttpUtil.ContentType.Parameters
import HttpUtil.ContentType.Bounds
import HttpUtil.Ranges
import HttpUtil.EndOfHeaders
import HttpUtil.Encodings
import HttpUtil.Encodings.Weights
import HttpUtil.Languages
